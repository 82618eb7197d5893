import Nekonix.Mm.Vma.Returned

/-!
# The links of a list

A region that goes to the end of the list knows the one in front of it, and where each region
does, `vma_free` takes out exactly the region it has found.  A region that goes in front of
another one is not known to that one.
-/

namespace Nekonix

open FlatMemory LinkedList Transition

variable {hhdmOffset size flags returned ptr : U64} {pool : List U64} {kernel ctx : Frame}
  {booted start machine next before after : Machine} {memory other : Memory}
  {holdings front back : List Holding} {previous new holding last : Holding}

/-- `region->next->prev` is `region` wherever there is a next region. -/
def BackLinked (memory : Memory) (regions : List U64) : Prop :=
  regions.IsChain fun region next => Memory.load64 memory (regionPrev next) = region

/-- The list begins with the root, which stands for page 0, is linked in both directions, and
has every live region. -/
structure ListIntact (memory : Memory) (ctx : U64) (live regions : List U64) : Prop where
  list : RegionList memory ctx regions
  root : ∃ root, regions.head? = some root ∧ Memory.load64 memory (regionStart root) = 0#64
  links : BackLinked memory regions
  listed : ∀ region ∈ live, region ∈ regions

/-- No region between the root and the last one passes the test, and the root is not given
back. -/
def KeepsEnds (memory : Memory) (ctx : U64) : VmaCall → Prop
  | .alloc size _ _ => ∀ regions, RegionList memory ctx regions →
      ∀ region ∈ regions.tail.dropLast, ¬RegionFits memory size region
  | .free _ region => region ≠ Memory.load64 memory (contextRoot ctx)

def LinkedStep (hhdmOffset : U64) (pool : List U64) (kernel ctx : Frame) (machine : Machine)
    (call : VmaCall) (next : Machine) : Prop :=
  VmaStep hhdmOffset pool kernel ctx machine call next ∧
    KeepsEnds machine.memory (ctx.pointer hhdmOffset) call

/-- The `prev` of the first region does not count. -/
theorem BackLinked.congr {regions : List U64} (links : BackLinked memory regions)
    (same : ∀ region ∈ regions.tail, Memory.load64 other (regionPrev region) =
      Memory.load64 memory (regionPrev region)) : BackLinked other regions := by
  refine List.IsChain.imp_of_mem_tail_imp ?_ links
  intro region next _ membership linked
  rw [same next membership, linked]

/-- The list of the context has these regions, the first is the root, and they are linked in
both directions. -/
structure Linked (hhdmOffset : U64) (pool : List U64) (kernel ctx : Frame)
    (holdings : List Holding) (machine : Machine) : Prop extends
    HasRegions hhdmOffset pool kernel ctx holdings machine where
  root : ∃ root, holdings.head? = some root ∧ root.start = 0#64
  links : BackLinked machine.memory (holdings.map (Holding.region hhdmOffset))

namespace Linked

theorem keep (linked : Linked hhdmOffset pool kernel ctx holdings before)
    (hasRegions : HasRegions hhdmOffset pool kernel ctx holdings after)
    (kept : RegionsKept hhdmOffset pool kernel ctx (holdings.map Holding.record) before after) :
    Linked hhdmOffset pool kernel ctx holdings after where
  toHasRegions := hasRegions
  root := linked.root
  links := linked.links.congr fun region membership => by
    obtain ⟨holding, listed, rfl⟩ := List.mem_map.mp (List.mem_of_mem_tail membership)
    exact (kept.fields holding.record (List.mem_map_of_mem listed)).prev

/-- A region at the end of the list. -/
theorem append (linked : Linked hhdmOffset pool kernel ctx (front ++ [last]) before)
    (added : HoldingAdded hhdmOffset pool kernel ctx size flags front last new [] returned before
      after) : Linked hhdmOffset pool kernel ctx (front ++ [last, new]) after where
  toHasRegions := added.hasRegions
  root := by
    obtain ⟨root, isRoot, zero⟩ := linked.root
    refine ⟨root, ?_, zero⟩
    rw [← isRoot, List.head?_append, List.head?_append, List.head?_cons, List.head?_cons]
  links := by
    have kept : BackLinked after.memory ((front ++ [last]).map (Holding.region hhdmOffset)) := by
      refine linked.links.congr fun region membership => ?_
      obtain ⟨holding, listed, rfl⟩ := List.mem_map.mp (List.mem_of_mem_tail membership)
      have inList := List.mem_map_of_mem (f := Holding.record) listed
      rw [List.map_append] at inList
      exact (added.region.fields holding.record inList).prev
    unfold BackLinked at *
    rw [List.map_append, List.map_singleton] at kept
    rw [List.map_append, List.map_cons, List.map_singleton, List.isChain_append_cons_cons]
    exact ⟨kept, added.region.isPrev, List.isChain_singleton _⟩

/-- A region is taken out of the list. -/
theorem unlink (linked : Linked hhdmOffset pool kernel ctx (front ++ previous :: holding :: back) before)
    (isFound : vmaFind before.memory ptr (2 ^ 64)
      (Memory.load64 before.memory (contextRoot (ctx.pointer hhdmOffset))) =
      some (holding.region hhdmOffset))
    (nonnull : ctx.pointer hhdmOffset ≠ 0#64)
    (gives : TurnsGiveData hhdmOffset pool kernel ctx
      ((front ++ previous :: holding :: back).map Holding.record) (holding.region hhdmOffset) (2 ^ 64)
      before 0#64)
    (freed : vmaFree hhdmOffset before (ctx.pointer hhdmOffset) ptr = some after) :
    Linked hhdmOffset pool kernel ctx (front ++ previous :: back) after ∧
      RecordReturned hhdmOffset kernel holding.record
        (vmaFreePages hhdmOffset (ctx.pointer hhdmOffset) (holding.region hhdmOffset) (2 ^ 64) before
          0#64) after := by
  have split : (front ++ previous :: holding :: back).map Holding.record =
      (front.map Holding.record ++ [previous.record]) ++ holding.record :: back.map Holding.record := by
    simp
  have links := linked.links
  unfold BackLinked at links
  rw [List.map_append, List.map_cons, List.map_cons, List.isChain_append_cons_cons] at links
  obtain ⟨inFront, isPrev, inBack⟩ := links
  have sound := linked.sound
  rw [split] at sound gives
  have left : LeftBehind hhdmOffset (front.map Holding.record ++ [previous.record])
      (back.map Holding.record)
      (Memory.load64 before.memory (regionPrev (holding.record.pointer hhdmOffset)))
      ((front ++ previous :: back).map Holding.record) :=
    Or.inl ⟨front.map Holding.record, previous.record, [], rfl, isPrev, by simp⟩
  have region := sound.free_found isFound nonnull left gives freed
  have part : (front ++ previous :: back).Sublist (front ++ previous :: holding :: back) :=
    ((List.sublist_cons_self holding back).cons_cons previous).append_left front
  have inList : ∀ other ∈ front ++ previous :: holding :: back,
      other.record ∈ (front.map Holding.record ++ [previous.record]) ++
        holding.record :: back.map Holding.record := fun other membership =>
    split ▸ List.mem_map_of_mem membership
  refine ⟨⟨linked.toHasRegions.relist region.sound part fun other membership =>
    region.extent other.record (inList other membership), ?_, ?_⟩, region.returned⟩
  · obtain ⟨root, isRoot, zero⟩ := linked.root
    refine ⟨root, ?_, zero⟩
    rw [← isRoot, List.head?_append, List.head?_append, List.head?_cons, List.head?_cons]
  · -- the `prev` of a record that is not the first one behind it
    have distinct := (List.nodup_cons.mp linked.sound.nodup).2
    have kept : ∀ other ∈ front ++ previous :: holding :: back, back.head? ≠ some other →
        Memory.load64 after.memory (regionPrev (other.region hhdmOffset)) =
          Memory.load64 before.memory (regionPrev (other.region hhdmOffset)) := by
      intro other membership notFirst
      refine (region.prev other.record (inList other membership)).trans (if_neg fun isFirst => ?_)
      rw [List.head?_map] at isFirst
      obtain ⟨first, isFirst, same⟩ := Option.map_eq_some_iff.mp isFirst
      have firstIn : first ∈ front ++ previous :: holding :: back := by
        have inBack := List.mem_of_mem_head? isFirst
        simp [inBack]
      exact notFirst (isFirst.trans (congrArg some
        (List.inj_on_of_nodup_map distinct firstIn membership same)))
    have nodup := distinct.of_map
    rw [List.append_cons] at nodup
    obtain ⟨-, behind, across⟩ := List.nodup_append.mp nodup
    have apart : ∀ other ∈ back, other ∉ front ++ [previous] := fun other inBack inFront =>
      across other inFront other (List.mem_cons_of_mem _ inBack) rfl
    have newFront : BackLinked after.memory ((front ++ [previous]).map (Holding.region hhdmOffset)) := by
      rw [List.map_append, List.map_singleton]
      refine BackLinked.congr inFront fun region membership => ?_
      rw [← List.map_singleton (f := Holding.region hhdmOffset), ← List.map_append] at membership
      obtain ⟨other, inFront, rfl⟩ := List.mem_map.mp (List.mem_of_mem_tail membership)
      refine kept other ?_ fun isFirst => apart other (List.mem_of_mem_head? isFirst) inFront
      rw [List.append_cons]
      exact List.mem_append_left _ inFront
    unfold BackLinked at newFront ⊢
    rw [List.map_append, List.map_singleton] at newFront
    cases back with
    | nil =>
        rw [List.map_append, List.map_singleton]
        exact newFront
    | cons first rest =>
        rw [List.map_append, List.map_cons, List.map_cons, List.isChain_append_cons_cons]
        have firstPrev := region.prev first.record (inList first (by simp))
        rw [List.map_cons, List.head?_cons, if_pos rfl] at firstPrev
        refine ⟨newFront, firstPrev.trans isPrev, ?_⟩
        rw [List.map_cons, List.isChain_cons_cons] at inBack
        refine BackLinked.congr inBack.2 fun region membership => ?_
        obtain ⟨other, inRest, rfl⟩ := List.mem_map.mp membership
        refine kept other (by simp [inRest]) fun isFirst => ?_
        obtain rfl := Option.some.inj isFirst
        exact (List.nodup_cons.mp (List.nodup_cons.mp behind).2).1 inRest

/-- A call of `vma_alloc` that is allowed adds a region to the end, if it adds one. -/
theorem alloc {newRegion : U64} {placed : Machine}
    (linked : Linked hhdmOffset pool kernel ctx holdings before)
    (allowed : AllocAllowed hhdmOffset ctx before size flags)
    (fail : ∀ regions, RegionList before.memory (ctx.pointer hhdmOffset) regions →
      ∀ region ∈ regions.tail.dropLast, ¬RegionFits before.memory size region)
    (isPlaced : vmaPlace hhdmOffset before (ctx.pointer hhdmOffset) size flags =
      some (newRegion, placed))
    (allocated : vmaAlloc hhdmOffset before (ctx.pointer hhdmOffset) size flags =
      some (returned, after)) :
    newRegion = 0#64 ∧ returned = 0#64 ∧ Linked hhdmOffset pool kernel ctx holdings after ∧
        RegionsKept hhdmOffset pool kernel ctx (holdings.map Holding.record) before after ∨
      ∃ front last new, holdings = front ++ [last] ∧ newRegion = new.region hhdmOffset ∧
        HoldingAdded hhdmOffset pool kernel ctx size flags front last new [] returned before after ∧
        Linked hhdmOffset pool kernel ctx (front ++ [last, new]) after := by
  rcases linked.toHasRegions.alloc allowed isPlaced allocated with
    ⟨null, failed, hasRegions, kept⟩ | ⟨front, previous, new, back, rfl, isNew, -, added⟩
  · exact Or.inl ⟨null, failed, linked.keep hasRegions kept, kept⟩
  · have none : back.map Holding.record = [] := by
      apply added.region.behind.last
      intro frame membership
      apply fail _ linked.list
      rw [← List.map_cons, ← List.map_append, ← List.map_tail, ← List.map_dropLast] at membership
      obtain ⟨holding, listed, rfl⟩ := List.mem_map.mp membership
      rw [← List.map_tail, ← List.map_dropLast]
      exact List.mem_map_of_mem listed
    rw [List.map_eq_nil_iff] at none
    subst none
    exact Or.inr ⟨front, previous, new, rfl, isNew, added, linked.append added⟩

/-- `vma_free` takes the region it has found out of the list. -/
theorem free {region : U64} (linked : Linked hhdmOffset pool kernel ctx holdings before)
    (nonnull : ctx.pointer hhdmOffset ≠ 0#64)
    (allowed : FreeAllowed hhdmOffset pool kernel ctx before ptr)
    (isFound : vmaFind before.memory ptr (2 ^ 64)
      (Memory.load64 before.memory (contextRoot (ctx.pointer hhdmOffset))) = some region)
    (notRoot : region ≠ Memory.load64 before.memory (contextRoot (ctx.pointer hhdmOffset)))
    (freed : vmaFree hhdmOffset before (ctx.pointer hhdmOffset) ptr = some after) :
    region = 0#64 ∧ after = before ∨
      ∃ front previous holding back, holdings = front ++ previous :: holding :: back ∧
        region = holding.region hhdmOffset ∧
        Linked hhdmOffset pool kernel ctx (front ++ previous :: back) after := by
  rcases linked.found nonnull isFound freed with none | ⟨others, holding, back, rfl, rfl⟩
  · exact Or.inl none
  · rcases List.eq_nil_or_concat' others with rfl | ⟨front, previous, rfl⟩
    · exact absurd linked.list.1.symm notRoot
    · rw [List.append_assoc, List.singleton_append] at linked
      have list := linked.sound.list
      have split : (front ++ previous :: holding :: back).map Holding.record =
          (front ++ [previous]).map Holding.record ++ holding.record :: back.map Holding.record := by
        simp
      rw [split] at list
      obtain ⟨-, gives⟩ := allowed _ _ _ list isFound
      rw [← split] at gives
      obtain ⟨unlinked, -⟩ := linked.unlink isFound nonnull gives freed
      exact Or.inr ⟨front, previous, holding, back, by simp, rfl, unlinked⟩

end Linked

/-! Over time -/

theorem liveRegions_alloc (calls : List VmaCall) (size flags record : U64) :
    liveRegions (calls ++ [.alloc size flags record]) =
      if record = 0#64 then liveRegions calls else liveRegions calls ++ [record] := by
  simp [liveRegions]

theorem liveRegions_free (calls : List VmaCall) (ptr record : U64) :
    liveRegions (calls ++ [.free ptr record]) = (liveRegions calls).erase record := by
  simp [liveRegions]

/-- A region that is found is the one that is gone afterwards. -/
theorem Linked.erase_eq (linked : Linked hhdmOffset pool kernel ctx
      (front ++ previous :: holding :: back) machine) :
    (front ++ previous :: back).map (Holding.region hhdmOffset) =
      ((front ++ previous :: holding :: back).map (Holding.region hhdmOffset)).erase
        (holding.region hhdmOffset) := by
  have distinct := linked.list.nodup
  rw [List.append_cons, List.map_append, List.map_cons] at distinct
  obtain ⟨-, -, across⟩ := List.nodup_append.mp distinct
  have notInFront : holding.region hhdmOffset ∉ (front ++ [previous]).map (Holding.region hhdmOffset) :=
    fun inFront => across _ inFront _ List.mem_cons_self rfl
  have split : (front ++ previous :: holding :: back).map (Holding.region hhdmOffset) =
      (front ++ [previous]).map (Holding.region hhdmOffset) ++
        holding.region hhdmOffset :: back.map (Holding.region hhdmOffset) := by
    simp
  rw [split, List.erase_append_right _ notInFront, List.erase_cons_head, ← List.map_append,
    List.append_assoc, List.singleton_append]

/-- What a step leaves of a list that is in order, and of the live regions. -/
theorem Linked.step {call : VmaCall} {calls : List VmaCall}
    (linked : Linked hhdmOffset pool kernel ctx holdings machine)
    (nonnull : ctx.pointer hhdmOffset ≠ 0#64)
    (live : (liveRegions calls).Sublist (holdings.map (Holding.region hhdmOffset)))
    (step : LinkedStep hhdmOffset pool kernel ctx machine call next) :
    ∃ holdings, Linked hhdmOffset pool kernel ctx holdings next ∧
      (liveRegions (calls ++ [call])).Sublist (holdings.map (Holding.region hhdmOffset)) := by
  obtain ⟨step, keeps⟩ := step
  cases step with
  | alloc allowed isPlaced allocated =>
      rw [liveRegions_alloc]
      rcases linked.alloc allowed keeps isPlaced allocated with
        ⟨-, rfl, kept, -⟩ | ⟨front, last, new, rfl, rfl, added, grown⟩
      · refine ⟨holdings, kept, ?_⟩
        rw [if_pos rfl, if_pos rfl]
        exact live
      · refine ⟨_, grown, ?_⟩
        have longer : (front ++ [last, new]).map (Holding.region hhdmOffset) =
            (front ++ [last]).map (Holding.region hhdmOffset) ++ [new.region hhdmOffset] := by
          simp
        rw [longer]
        split_ifs with failed zero null
        · exact live.trans (List.sublist_append_left _ _)
        · exact absurd rfl zero
        · exact live.trans (List.sublist_append_left _ _)
        · exact live.append (List.Sublist.refl _)
  | free allowed isFound freed =>
      rw [liveRegions_free]
      rcases linked.free nonnull allowed isFound keeps freed with
        ⟨-, rfl⟩ | ⟨front, previous, holding, back, rfl, rfl, unlinked⟩
      · exact ⟨holdings, linked, List.erase_sublist.trans live⟩
      · refine ⟨_, unlinked, ?_⟩
        rw [linked.erase_eq]
        exact live.erase _

theorem NewContext.linked {root : Frame}
    (new : NewContext hhdmOffset kernel ctx root booted machine) :
    Linked hhdmOffset booted.free kernel ctx [.ofRoot root] machine where
  toHasRegions := new.hasRegions
  root := ⟨_, rfl, rfl⟩
  links := List.isChain_singleton _

theorem ContextReady.linked {calls : List VmaCall} (ready : ContextReady hhdmOffset kernel booted)
    (created : vmaCreateContext hhdmOffset booted (kernel.pointer hhdmOffset) =
      (ctx.pointer hhdmOffset, start))
    (run : Run (LinkedStep hhdmOffset booted.free kernel ctx) start calls machine) :
    ctx.pointer hhdmOffset ≠ 0#64 ∧ ∃ holdings,
      Linked hhdmOffset booted.free kernel ctx holdings machine ∧
      (liveRegions calls).Sublist (holdings.map (Holding.region hhdmOffset)) := by
  obtain ⟨root, new⟩ := ready.new created
  have nonnull := ready.nonnull (new.sound.fromPool ctx List.mem_cons_self)
  refine ⟨nonnull, ?_⟩
  induction run with
  | nil => exact ⟨_, new.linked, List.nil_sublist _⟩
  | snoc _ step inductionHypothesis =>
      obtain ⟨holdings, linked, live⟩ := inductionHypothesis
      exact linked.step nonnull live step

end Nekonix
