import Nekonix.Mm.Vma.Lists

/-!
# Release from a list

`vma_free` gives back the pages of a region and takes its record off the list, along the
`prev` that the record has.
-/

namespace Nekonix

open FlatMemory RadixTable LinkedList

variable {hhdmOffset : U64} {pool : List U64} {kernel ctx record : Frame}
  {records front back : List Frame} {machine before after : Machine} {memory : Memory}

/-- The page that is given back is none, or a page of data that came from the free stack. -/
def GivesData (hhdmOffset : U64) (pool : List U64) (kernel ctx : Frame) (records : List Frame)
    (machine : Machine) (page : U64) : Prop :=
  page = 0#64 ∨
    ∃ frame : Frame, page = frame.address ∧ page ∈ pool ∧ InUse hhdmOffset kernel machine frame ∧
      frame ∉ ctx :: records

/-- Each turn of the loop gives back a page of data. -/
def TurnsGiveData (hhdmOffset : U64) (pool : List U64) (kernel ctx : Frame)
    (records : List Frame) (region : U64) : (fuel : Nat) → Machine → (i : U64) → Prop
  | 0, _, _ => True
  | fuel + 1, machine, i =>
      i < Memory.load64 machine.memory (regionSize region) →
        GivesData hhdmOffset pool kernel ctx records machine
            (virtToPhys hhdmOffset machine.memory
              (Memory.load64 machine.memory (contextPagemap (ctx.pointer hhdmOffset)))
              (Memory.load64 machine.memory (regionStart region) + i * pageSize)) ∧
          TurnsGiveData hhdmOffset pool kernel ctx records region fuel
            (vmaFreeTurn hhdmOffset (ctx.pointer hhdmOffset) region machine i) (i + 1#64)

/-- What is left of the list where the record between `front` and `back` leaves it along
`prev`: what lies between the record and its `prev` leaves with it. -/
def LeftBehind (hhdmOffset : U64) (front back : List Frame) (prev : U64) (fewer : List Frame) : Prop :=
  (∃ before previous passed, front = before ++ previous :: passed ∧
      prev = previous.pointer hhdmOffset ∧ fewer = before ++ previous :: back) ∨
    front = [] ∧ prev = 0#64 ∧ fewer = back

theorem LeftBehind.sublist {prev : U64} {fewer : List Frame}
    (left : LeftBehind hhdmOffset front back prev fewer) : fewer.Sublist (front ++ back) := by
  rcases left with ⟨before, previous, passed, rfl, -, rfl⟩ | ⟨rfl, -, rfl⟩
  · rw [List.append_assoc, List.cons_append]
    exact ((List.sublist_append_right passed back).cons_cons previous).append_left before
  · exact List.Sublist.refl _

namespace SoundContext

theorem giveData {page : U64}
    (sound : SoundContext hhdmOffset pool kernel ctx records machine)
    (gives : GivesData hhdmOffset pool kernel ctx records machine page) :
    SoundContext hhdmOffset pool kernel ctx records (pmmFreePage machine page) := by
  rcases gives with rfl | ⟨frame, rfl, inPool, inUse, other⟩
  · rw [pmmFreePage_null]
    exact sound
  · exact (sound.give inPool inUse other).2

theorem freeTurn {region i : U64}
    (sound : SoundContext hhdmOffset pool kernel ctx records machine)
    (gives : GivesData hhdmOffset pool kernel ctx records machine
      (virtToPhys hhdmOffset machine.memory
        (Memory.load64 machine.memory (contextPagemap (ctx.pointer hhdmOffset)))
        (Memory.load64 machine.memory (regionStart region) + i * pageSize))) :
    let turn := vmaFreeTurn hhdmOffset (ctx.pointer hhdmOffset) region machine i
    SoundContext hhdmOffset pool kernel ctx records turn ∧
      ∀ frame ∈ ctx :: records, SameFrame hhdmOffset machine.memory turn.memory frame := by
  intro turn
  have given := sound.giveData gives
  have isTurn : turn = vmmUnmap hhdmOffset
      (pmmFreePage machine (virtToPhys hhdmOffset machine.memory
        (Memory.load64 machine.memory (contextPagemap (ctx.pointer hhdmOffset)))
        (Memory.load64 machine.memory (regionStart region) + i * pageSize)))
      (kernel.pointer hhdmOffset)
      (Memory.load64 machine.memory (regionStart region) + i * pageSize) := by
    rw [← sound.pagemap]
    rfl
  rw [isTurn]
  generalize Memory.load64 machine.memory (regionStart region) + i * pageSize = virt at given ⊢
  generalize virtToPhys hhdmOffset machine.memory
    (Memory.load64 machine.memory (contextPagemap (ctx.pointer hhdmOffset))) virt = page at given ⊢
  obtain ⟨unmapped, same⟩ := given.unmap virt
  refine ⟨unmapped, fun frame membership => ?_⟩
  rw [← pmmFreePage_memory machine page]
  exact same frame (given.inUse frame membership)

theorem freePages {region i : U64} (fuel : Nat)
    (sound : SoundContext hhdmOffset pool kernel ctx records machine)
    (gives : TurnsGiveData hhdmOffset pool kernel ctx records region fuel machine i) :
    let loop := vmaFreePages hhdmOffset (ctx.pointer hhdmOffset) region fuel machine i
    SoundContext hhdmOffset pool kernel ctx records loop ∧
      ∀ frame ∈ ctx :: records, SameFrame hhdmOffset machine.memory loop.memory frame := by
  induction fuel generalizing machine i with
  | zero => exact ⟨sound, fun _ _ _ _ => rfl⟩
  | succ fuel inductionHypothesis =>
      unfold vmaFreePages
      by_cases inside : i < Memory.load64 machine.memory (regionSize region)
      · obtain ⟨here, later⟩ := gives inside
        obtain ⟨turn, same⟩ := sound.freeTurn here
        obtain ⟨rest, sameLater⟩ := inductionHypothesis turn later
        rw [if_pos inside]
        refine ⟨rest, fun frame membership address inFrame => ?_⟩
        exact (sameLater frame membership address inFrame).trans
          (same frame membership address inFrame)
      · rw [if_neg inside]
        exact ⟨sound, fun _ _ _ _ => rfl⟩

/-- A record gets the `next` of a record behind it. -/
theorem cut {previous : Frame} {passed : List Frame} {memory : Memory}
    (sound : SoundContext hhdmOffset pool kernel ctx
      (front ++ previous :: (passed ++ record :: back)) machine)
    (stored : memory = Memory.store64 machine.memory (regionNext (previous.pointer hhdmOffset))
      (nextRegion machine.memory (record.pointer hhdmOffset))) :
    SoundContext hhdmOffset pool kernel ctx (front ++ previous :: back) { machine with memory } ∧
      ∀ frame, InUse hhdmOffset kernel machine frame →
        InUse hhdmOffset kernel { machine with memory } frame := by
  have distinct := sound.nodup
  rw [← List.cons_append, List.nodup_middle, List.nodup_cons, List.cons_append] at distinct
  have subset : front ++ previous :: back ⊆ front ++ previous :: (passed ++ record :: back) := by
    intro frame membership
    simp only [List.mem_append, List.mem_cons] at membership ⊢
    tauto
  have outside : ∀ address, ¬previous.Holds hhdmOffset address →
      memory address = machine.memory address := by
    intro address off
    rw [stored]
    exact Frame.store64_outside off (by decide)
  have same : ∀ frame ∈ ctx :: (front ++ back), SameFrame hhdmOffset machine.memory memory frame := by
    intro frame membership address inFrame
    apply outside
    intro inPrevious
    rw [inFrame.unique inPrevious] at membership
    apply distinct.1
    simp only [List.mem_cons, List.mem_append] at membership ⊢
    tauto
  refine sound.rewrite subset (List.mem_cons_of_mem _ (by simp)) outside
    (Frame.load64_start_congr (same ctx List.mem_cons_self)) ?_
  have list := sound.list
  unfold RegionList at list ⊢
  rw [List.map_append, List.map_cons, List.map_append, List.map_cons] at list
  rw [(same ctx List.mem_cons_self).contextRoot, List.map_append, List.map_cons]
  have behind := list
  rw [← List.cons_append, ← List.append_assoc] at behind
  rw [List.append_cons (passed.map _)] at list
  refine list.cut ?_ ?_
  · have linked : nextRegion memory (previous.pointer hhdmOffset) =
        nextRegion machine.memory (record.pointer hhdmOffset) := by
      rw [stored]
      exact Memory.load64_store64_same _ _ _
    rw [linked]
    exact behind.drop.2.2
  · intro cell membership
    rw [← List.map_append] at membership
    obtain ⟨listed, listedIn, rfl⟩ := List.mem_map.mp membership
    exact (same listed (List.mem_cons_of_mem _ listedIn)).nextRegion

/-- The record behind the one that leaves, if there is one, gets another `prev`. -/
theorem storePrev {prev back : U64} {memory : Memory}
    (sound : SoundContext hhdmOffset pool kernel ctx records machine)
    (listed : back ≠ 0#64 → ∃ record ∈ records, back = record.pointer hhdmOffset)
    (stored : memory =
      if back ≠ 0#64 then Memory.store64 machine.memory (regionPrev back) prev
      else machine.memory) :
    SoundContext hhdmOffset pool kernel ctx records { machine with memory } ∧
      (∀ frame, InUse hhdmOffset kernel machine frame →
        InUse hhdmOffset kernel { machine with memory } frame) ∧
      ∀ other : Frame, nextRegion memory (other.pointer hhdmOffset) =
        nextRegion machine.memory (other.pointer hhdmOffset) := by
  by_cases none : back = 0#64
  · rw [if_neg (not_not.mpr none)] at stored
    subst stored
    exact ⟨sound, fun _ inUse => inUse, fun _ => rfl⟩
  obtain ⟨record, recordIn, rfl⟩ := listed none
  rw [if_pos none] at stored
  have other : ctx ≠ record := by
    rintro rfl
    exact sound.notRecord recordIn
  have outside : ∀ address, ¬record.Holds hhdmOffset address →
      memory address = machine.memory address := by
    intro address off
    rw [stored]
    exact Frame.store64_outside off (by decide)
  have same : SameFrame hhdmOffset machine.memory memory ctx :=
    fun address inContext => outside address fun inRecord => other (inContext.unique inRecord)
  have nextKept : ∀ other : Frame, nextRegion memory (other.pointer hhdmOffset) =
      nextRegion machine.memory (other.pointer hhdmOffset) := by
    intro other
    rw [stored]
    exact load64_store64_field (by decide) (by decide) (Or.inr (Or.inl (by decide)))
  have list : RegionList memory (ctx.pointer hhdmOffset)
      (records.map (Frame.pointer hhdmOffset)) := by
    have list := sound.list
    unfold RegionList at list ⊢
    rw [same.contextRoot]
    refine list.congr ?_
    intro cell membership
    obtain ⟨listedRecord, -, rfl⟩ := List.mem_map.mp membership
    exact nextKept listedRecord
  obtain ⟨kept, inUse⟩ := sound.rewrite (fun _ membership => membership)
    (List.mem_cons_of_mem _ recordIn) outside (Frame.load64_start_congr same) list
  exact ⟨kept, inUse, nextKept⟩

/-- The context gets the record behind the root as its root. -/
theorem dropRoot {memory : Memory}
    (sound : SoundContext hhdmOffset pool kernel ctx (record :: back) machine)
    (stored : memory = Memory.store64 machine.memory (contextRoot (ctx.pointer hhdmOffset))
      (nextRegion machine.memory (record.pointer hhdmOffset))) :
    SoundContext hhdmOffset pool kernel ctx back { machine with memory } ∧
      ∀ frame, InUse hhdmOffset kernel machine frame →
        InUse hhdmOffset kernel { machine with memory } frame := by
  have outside : ∀ address, ¬ctx.Holds hhdmOffset address →
      memory address = machine.memory address := by
    intro address off
    rw [stored]
    exact Frame.store64_outside off (by decide)
  refine sound.rewrite (List.subset_cons_self record back) List.mem_cons_self outside ?_ ?_
  · rw [stored]
    exact Memory.load64_store64_separate (start_separate (by decide) (by decide)).symm
  · unfold RegionList
    rw [stored, Memory.load64_store64_same, ← stored]
    refine sound.list.2.2.congr ?_
    intro cell membership
    obtain ⟨listed, listedIn, rfl⟩ := List.mem_map.mp membership
    have same : SameFrame hhdmOffset machine.memory memory listed := by
      intro address inFrame
      apply outside
      intro inContext
      rw [inFrame.unique inContext] at listedIn
      exact sound.notRecord (List.mem_cons_of_mem _ listedIn)
    exact same.nextRegion

/-- A record leaves the list, and with it what lies between it and its `prev`. -/
theorem unlink {prev back' : U64} {fewer : List Frame} {memory : Memory}
    (sound : SoundContext hhdmOffset pool kernel ctx (front ++ record :: back) machine)
    (left : LeftBehind hhdmOffset front back prev fewer)
    (isNext : back' = nextRegion machine.memory (record.pointer hhdmOffset))
    (stored : memory = vmaUnlink machine.memory (ctx.pointer hhdmOffset)
      (record.pointer hhdmOffset) prev back') :
    SoundContext hhdmOffset pool kernel ctx fewer { machine with memory } ∧
      ∀ frame, InUse hhdmOffset kernel machine frame →
        InUse hhdmOffset kernel { machine with memory } frame := by
  have distinct := (List.nodup_cons.mp sound.nodup).2
  have list := sound.list
  unfold RegionList at list
  rw [List.map_append, List.map_cons] at list
  have nonzero : ∀ frame ∈ front, frame.pointer hhdmOffset ≠ 0#64 := fun frame membership =>
    list.ne_stop _ (List.mem_append_left _ (List.mem_map_of_mem membership))
  -- what follows the record is listed behind it
  have follows : back' ≠ 0#64 → ∃ frame ∈ back, back' = frame.pointer hhdmOffset := by
    intro nonnull
    have behind := list.drop.2.2
    rw [← isNext] at behind
    cases back with
    | nil => exact absurd behind nonnull
    | cons first rest => exact ⟨first, List.mem_cons_self, behind.1⟩
  unfold vmaUnlink at stored
  dsimp only at stored
  generalize linked : (if prev ≠ 0#64 then Memory.store64 machine.memory (regionNext prev) back'
    else machine.memory) = middle at stored
  generalize backed : (if back' ≠ 0#64 then Memory.store64 middle (regionPrev back') prev
    else middle) = last at stored
  rcases left with ⟨before, previous, passed, rfl, rfl, rfl⟩ | ⟨rfl, rfl, rfl⟩
  · rw [if_pos (nonzero previous (by simp)), isNext] at linked
    rw [List.append_assoc, List.cons_append] at sound
    obtain ⟨cut, inUse⟩ := sound.cut linked.symm
    have stays := fun nonnull => (follows nonnull).imp fun frame listed =>
      And.intro (List.mem_append_right before (List.mem_cons_of_mem previous listed.1)) listed.2
    obtain ⟨kept, inUseLater, -⟩ := cut.storePrev stays backed.symm
    have notRoot : record.pointer hhdmOffset ≠
        Memory.load64 last (contextRoot (ctx.pointer hhdmOffset)) := by
      intro isRoot
      have rootIn := kept.list.start_mem (by simp)
      rw [← isRoot, Frame.pointer_mem] at rootIn
      rw [List.nodup_middle, List.nodup_cons] at distinct
      apply distinct.1
      simp only [List.mem_append, List.mem_cons] at rootIn ⊢
      tauto
    rw [if_neg notRoot] at stored
    subst stored
    exact ⟨kept, fun frame used => inUseLater _ (inUse _ used)⟩
  · rw [if_neg (not_not.mpr rfl)] at linked
    subst linked
    have stays := fun nonnull => (follows nonnull).imp fun frame listed =>
      And.intro (List.mem_cons_of_mem record listed.1) listed.2
    obtain ⟨kept, inUse, sameNext⟩ := sound.storePrev stays backed.symm
    have isRoot := kept.list.1
    rw [if_pos isRoot.symm, isNext, ← sameNext] at stored
    obtain ⟨dropped, inUseLater⟩ := kept.dropRoot stored
    exact ⟨dropped, fun frame used => inUseLater _ (inUse _ used)⟩

end SoundContext

/-- The search of `vma_free` finds a record of the list, or none. -/
theorem vmaFind_listed {regions : List U64} {start ptr region : U64}
    (list : Segment (nextRegion memory) 0#64 start regions) {fuel : Nat}
    (found : vmaFind memory ptr fuel start = some region) : region = 0#64 ∨ region ∈ regions := by
  induction regions generalizing start fuel with
  | nil =>
      rw [list] at found
      cases fuel with
      | zero => cases found
      | succ fuel =>
          rw [vmaFind, if_pos rfl] at found
          exact Or.inl (Option.some.inj found).symm
  | cons first rest inductionHypothesis =>
      obtain ⟨rfl, -, further⟩ := list
      cases fuel with
      | zero => cases found
      | succ fuel =>
          rw [vmaFind] at found
          split_ifs at found
          · exact Or.inl (Option.some.inj found).symm
          · exact Or.inr (Option.some.inj found ▸ List.mem_cons_self)
          · exact (inductionHypothesis further found).imp_right (List.mem_cons_of_mem _)

/-- The region that is given back lies behind its `prev`, or is the root and has none, and
its pages are pages of data. -/
def FreeAllowed (hhdmOffset : U64) (pool : List U64) (kernel ctx : Frame) (machine : Machine)
    (ptr : U64) : Prop :=
  ∀ front record back,
    RegionList machine.memory (ctx.pointer hhdmOffset)
      ((front ++ record :: back).map (Frame.pointer hhdmOffset)) →
    vmaFind machine.memory ptr (2 ^ 64)
        (Memory.load64 machine.memory (contextRoot (ctx.pointer hhdmOffset))) =
      some (record.pointer hhdmOffset) →
    ((∃ previous ∈ front, Memory.load64 machine.memory (regionPrev (record.pointer hhdmOffset)) =
          previous.pointer hhdmOffset) ∨
        front = [] ∧
          Memory.load64 machine.memory (regionPrev (record.pointer hhdmOffset)) = 0#64) ∧
      TurnsGiveData hhdmOffset pool kernel ctx (front ++ record :: back)
        (record.pointer hhdmOffset) (2 ^ 64) machine 0#64

/-- Where `vma_free` writes two records of the list, and the context, it changes the `prev` of
the record behind the one that leaves, and no start and no size. -/
theorem vmaUnlink_fields {region prev next : U64} {frame : Frame}
    (isPrev : prev ≠ 0#64 → ∃ previous : Frame, prev = previous.pointer hhdmOffset)
    (isNext : next ≠ 0#64 → ∃ following : Frame, next = following.pointer hhdmOffset)
    (different : ctx ≠ frame) :
    SameExtent hhdmOffset memory (vmaUnlink memory (ctx.pointer hhdmOffset) region prev next) frame ∧
      Memory.load64 (vmaUnlink memory (ctx.pointer hhdmOffset) region prev next)
          (regionPrev (frame.pointer hhdmOffset)) =
        if next ≠ 0#64 ∧ frame.pointer hhdmOffset = next then prev
        else Memory.load64 memory (regionPrev (frame.pointer hhdmOffset)) := by
  have linked : SameFields hhdmOffset memory
      (if prev ≠ 0#64 then Memory.store64 memory (regionNext prev) next else memory) frame := by
    split_ifs with null
    · obtain ⟨previous, rfl⟩ := isPrev null
      exact .store_next
    · exact .of_same fun _ _ => rfl
  unfold vmaUnlink
  dsimp only
  generalize (if prev ≠ 0#64 then Memory.store64 memory (regionNext prev) next else memory) = middle
    at linked
  have backed : SameExtent hhdmOffset middle
        (if next ≠ 0#64 then Memory.store64 middle (regionPrev next) prev else middle) frame ∧
      Memory.load64 (if next ≠ 0#64 then Memory.store64 middle (regionPrev next) prev else middle)
          (regionPrev (frame.pointer hhdmOffset)) =
        if next ≠ 0#64 ∧ frame.pointer hhdmOffset = next then prev
        else Memory.load64 middle (regionPrev (frame.pointer hhdmOffset)) := by
    split_ifs with nonnull here here
    · obtain ⟨-, rfl⟩ := here
      exact ⟨.store_prev, Memory.load64_store64_same _ _ _⟩
    · obtain ⟨following, rfl⟩ := isNext nonnull
      refine ⟨.store_prev, load64_store64_field (by decide) (by decide) (Or.inl ?_)⟩
      rintro rfl
      exact here ⟨nonnull, rfl⟩
    · exact absurd here.1 nonnull
    · exact ⟨⟨rfl, rfl⟩, rfl⟩
  generalize (if next ≠ 0#64 then Memory.store64 middle (regionPrev next) prev else middle) = last
    at backed
  have rooted : SameFields hhdmOffset last
      (if region = Memory.load64 last (contextRoot (ctx.pointer hhdmOffset)) then
        Memory.store64 last (contextRoot (ctx.pointer hhdmOffset)) next
      else last) frame := by
    refine .of_same fun address inFrame => ?_
    split_ifs
    · exact Frame.store64_outside (fun inContext => different (inContext.unique inFrame)) (by decide)
    · rfl
  refine ⟨(linked.toSameExtent.trans backed.1).trans rooted.toSameExtent, ?_⟩
  rw [rooted.prev, backed.2, linked.prev]

theorem vmaUnlink_outside {region prev next address : U64}
    (isPrev : prev ≠ 0#64 → ∃ previous : Frame, prev = previous.pointer hhdmOffset ∧
      ¬previous.Holds hhdmOffset address)
    (isNext : next ≠ 0#64 → ∃ following : Frame, next = following.pointer hhdmOffset ∧
      ¬following.Holds hhdmOffset address)
    (off : ¬ctx.Holds hhdmOffset address) :
    vmaUnlink memory (ctx.pointer hhdmOffset) region prev next address = memory address := by
  have linked : (if prev ≠ 0#64 then Memory.store64 memory (regionNext prev) next else memory)
      address = memory address := by
    split_ifs with nonnull
    · obtain ⟨previous, rfl, offPrevious⟩ := isPrev nonnull
      exact Frame.store64_outside offPrevious (by decide)
    · rfl
  unfold vmaUnlink
  generalize (if prev ≠ 0#64 then Memory.store64 memory (regionNext prev) next else memory) = middle
    at linked
  have backed : (if next ≠ 0#64 then Memory.store64 middle (regionPrev next) prev else middle)
      address = middle address := by
    split_ifs with nonnull
    · obtain ⟨following, rfl, offFollowing⟩ := isNext nonnull
      exact Frame.store64_outside offFollowing (by decide)
    · rfl
  generalize (if next ≠ 0#64 then Memory.store64 middle (regionPrev next) prev else middle) = last
    at backed
  rw [← linked, ← backed]
  split_ifs
  · exact Frame.store64_outside off (by decide)
  · rfl

/-- The record has been given back after its pages; only records were written. -/
structure RecordReturned (hhdmOffset : U64) (kernel record : Frame) (released after : Machine) :
    Prop where
  free : after.free = released.free ++ [record.address]
  inUse : ∀ frame, frame ≠ record → InUse hhdmOffset kernel released frame →
    InUse hhdmOffset kernel after frame
  tables : SameTables hhdmOffset kernel Set.univ released.memory after.memory

/-- What `vma_free` leaves of a list with the region it has found. -/
structure RegionFreed (hhdmOffset : U64) (pool : List U64) (kernel ctx : Frame)
    (front : List Frame) (record : Frame) (back fewer : List Frame) (before after : Machine) :
    Prop where
  sound : SoundContext hhdmOffset pool kernel ctx fewer after
  extent : ∀ frame ∈ front ++ record :: back, SameExtent hhdmOffset before.memory after.memory frame
  prev : ∀ frame ∈ front ++ record :: back,
    Memory.load64 after.memory (regionPrev (frame.pointer hhdmOffset)) =
      if back.head? = some frame then
        Memory.load64 before.memory (regionPrev (record.pointer hhdmOffset))
      else
        Memory.load64 before.memory (regionPrev (frame.pointer hhdmOffset))
  returned : RecordReturned hhdmOffset kernel record
    (vmaFreePages hhdmOffset (ctx.pointer hhdmOffset) (record.pointer hhdmOffset) (2 ^ 64) before
      0#64) after

theorem InUse.pmmFreePage {page : U64} {frame : Frame}
    (inUse : InUse hhdmOffset kernel machine frame)
    (free : (pmmFreePage machine page).free = machine.free ++ [page]) (other : frame.address ≠ page) :
    InUse hhdmOffset kernel (pmmFreePage machine page) frame := by
  refine ⟨?_, fun path membership reached => ?_⟩
  · rw [free, List.mem_append, List.mem_singleton, not_or]
    exact ⟨inUse.notFree, other⟩
  · rw [pmmFreePage_memory] at reached
    exact inUse.notTable path membership reached

theorem SoundContext.free_found {ptr : U64} {fewer : List Frame}
    (sound : SoundContext hhdmOffset pool kernel ctx (front ++ record :: back) before)
    (found : vmaFind before.memory ptr (2 ^ 64)
        (Memory.load64 before.memory (contextRoot (ctx.pointer hhdmOffset))) =
      some (record.pointer hhdmOffset))
    (nonnull : ctx.pointer hhdmOffset ≠ 0#64)
    (left : LeftBehind hhdmOffset front back
      (Memory.load64 before.memory (regionPrev (record.pointer hhdmOffset))) fewer)
    (gives : TurnsGiveData hhdmOffset pool kernel ctx (front ++ record :: back)
      (record.pointer hhdmOffset) (2 ^ 64) before 0#64)
    (freed : vmaFree hhdmOffset before (ctx.pointer hhdmOffset) ptr = some after) :
    RegionFreed hhdmOffset pool kernel ctx front record back fewer before after := by
  have listed : record ∈ front ++ record :: back := by simp
  have isRegion := sound.list.ne_stop _ (Frame.pointer_mem.mpr listed)
  obtain ⟨released, same⟩ := sound.freePages (2 ^ 64) gives
  have isNext := (same record (List.mem_cons_of_mem _ listed)).nextRegion.symm
  obtain ⟨unlinked, inUse⟩ := released.unlink left isNext rfl
  have distinct := sound.nodup
  rw [← List.cons_append, List.nodup_middle, List.nodup_cons] at distinct
  unfold vmaFree at freed
  dsimp only at freed
  rw [if_neg nonnull, found, Option.map_some, if_neg isRegion, Frame.physical_pointer] at freed
  cases freed
  -- what follows the record is the first record behind it
  have list := sound.list
  unfold RegionList at list
  rw [List.map_append, List.map_cons] at list
  have behind := list.drop.2.2
  have follows : nextRegion before.memory (record.pointer hhdmOffset) ≠ 0#64 →
      ∃ following : Frame, nextRegion before.memory (record.pointer hhdmOffset) =
        following.pointer hhdmOffset ∧ following ∈ front ++ record :: back := by
    intro nonnull
    cases back with
    | nil => exact absurd behind nonnull
    | cons first rest => exact ⟨first, behind.1, by simp⟩
  have previous : Memory.load64 before.memory (regionPrev (record.pointer hhdmOffset)) ≠ 0#64 →
      ∃ previous : Frame,
        Memory.load64 before.memory (regionPrev (record.pointer hhdmOffset)) =
          previous.pointer hhdmOffset ∧ previous ∈ front ++ record :: back := by
    intro nonnull
    rcases left with ⟨_, previous, _, rfl, isPrev, -⟩ | ⟨-, none, -⟩
    · exact ⟨previous, isPrev, by simp⟩
    · exact absurd none nonnull
  have isFirst : ∀ frame : Frame,
      (nextRegion before.memory (record.pointer hhdmOffset) ≠ 0#64 ∧
        frame.pointer hhdmOffset = nextRegion before.memory (record.pointer hhdmOffset)) ↔
      back.head? = some frame := by
    intro frame
    cases back with
    | nil => exact iff_of_false (fun both => both.1 behind) (fun none => nomatch none)
    | cons first rest =>
        rw [behind.1, Frame.pointer_inj, List.head?_cons, Option.some_inj, eq_comm]
        exact and_iff_right behind.2.1
  generalize isLoop : vmaFreePages hhdmOffset (ctx.pointer hhdmOffset) (record.pointer hhdmOffset)
    (2 ^ 64) before 0#64 = loop at released same unlinked inUse
  have fields : ∀ frame ∈ front ++ record :: back, _ := fun frame membership =>
    @vmaUnlink_fields hhdmOffset ctx loop.memory (record.pointer hhdmOffset) _ _ frame
      (fun nonnull => (previous nonnull).imp fun _ both => both.1)
      (fun nonnull => (follows nonnull).imp fun _ both => both.1)
      fun isContext => sound.notRecord (isContext ▸ membership)
  have early : ∀ frame ∈ front ++ record :: back, _ := fun frame membership =>
    SameFields.of_same (same frame (List.mem_cons_of_mem _ membership))
  -- the record goes back at last
  obtain ⟨free, given⟩ := unlinked.give (sound.fromPool record (List.mem_cons_of_mem _ listed))
    (inUse record (released.inUse record (List.mem_cons_of_mem _ listed)))
    fun again => distinct.1 ((List.cons_subset_cons ctx left.sublist.subset) again)
  refine ⟨given, ?_, ?_, ?_⟩
  · intro frame membership
    rw [pmmFreePage_memory]
    exact (early frame membership).toSameExtent.trans (fields frame membership).1
  · intro frame membership
    rw [pmmFreePage_memory, (fields frame membership).2, (early frame membership).prev]
    exact if_congr (isFirst frame) rfl rfl
  · rw [isLoop]
    refine ⟨free, ?_, ?_⟩
    · intro frame other used
      exact (inUse frame used).pmmFreePage free fun same => other (Frame.address_inj.mp same)
    · intro path membership table reached address inTable
      have off : ∀ frame ∈ ctx :: (front ++ record :: back), ¬frame.Holds hhdmOffset address := by
        intro frame listed inFrame
        exact (released.inUse frame listed).notTable path membership
          (inFrame.unique inTable ▸ reached)
      rw [pmmFreePage_memory]
      refine vmaUnlink_outside ?_ ?_ (off ctx List.mem_cons_self)
      · intro nonnull
        obtain ⟨frame, isPrev, inList⟩ := previous nonnull
        exact ⟨frame, isPrev, off frame (List.mem_cons_of_mem _ inList)⟩
      · intro nonnull
        obtain ⟨frame, isNext, inList⟩ := follows nonnull
        exact ⟨frame, isNext, off frame (List.mem_cons_of_mem _ inList)⟩

/-- `vma_free` keeps the context in order. -/
theorem SoundContext.free {ptr : U64}
    (sound : SoundContext hhdmOffset pool kernel ctx records before)
    (allowed : FreeAllowed hhdmOffset pool kernel ctx before ptr)
    (freed : vmaFree hhdmOffset before (ctx.pointer hhdmOffset) ptr = some after) :
    ∃ fewer, SoundContext hhdmOffset pool kernel ctx fewer after := by
  by_cases null : ctx.pointer hhdmOffset = 0#64
  · rw [vmaFree, if_pos null] at freed
    cases freed
    exact ⟨records, sound⟩
  have result := freed
  rw [vmaFree, if_neg null] at result
  obtain ⟨region, found, result⟩ := Option.map_eq_some_iff.mp result
  rcases vmaFind_listed sound.list found with rfl | listed
  · cases result
    exact ⟨records, sound⟩
  obtain ⟨record, recordIn, rfl⟩ := List.mem_map.mp listed
  obtain ⟨front, back, rfl⟩ := List.append_of_mem recordIn
  obtain ⟨isPrev, gives⟩ := allowed front record back sound.list found
  rcases isPrev with ⟨previous, membership, isPrev⟩ | ⟨rfl, isPrev⟩
  · obtain ⟨before, passed, rfl⟩ := List.append_of_mem membership
    exact ⟨_, (sound.free_found found null (Or.inl ⟨before, previous, passed, rfl, isPrev, rfl⟩) gives
      freed).sound⟩
  · exact ⟨_, (sound.free_found found null (Or.inr ⟨rfl, isPrev, rfl⟩) gives freed).sound⟩

end Nekonix
