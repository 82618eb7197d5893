import Nekonix.Mm.Vma.History

/-!
# What backs a region

Each turn of the mapping loop of `vma_alloc` gives a page a frame of its own and leaves the
other translations alone.  The loop takes the size, which counts pages, for a number of bytes.
-/

namespace Nekonix

open FlatMemory RadixTable Transition

variable {hhdmOffset size flags first virt : U64} {pool : List U64} {kernel ctx record frame : Frame}
  {data : List Frame} {booted start machine before middle after : Machine}

/-- The pages that the mapping loop gets from the allocator. -/
def vmaDataFrames (hhdmOffset ctx newRegion : U64) : (fuel : Nat) → Machine → (i : U64) → List U64
  | 0, _, _ => []
  | fuel + 1, machine, i =>
      if i < mappedPages (Memory.load64 machine.memory (regionSize newRegion)) then
        let turn := vmaMapPage hhdmOffset ctx newRegion machine i
        if turn.1 = 0#64 then []
        else turn.1 :: vmaDataFrames hhdmOffset ctx newRegion fuel turn.2 (i + 1#64)
      else
        []

/-- The pages that a call of `vma_alloc` gets for its region. -/
def vmaBackingFrames (hhdmOffset : U64) (machine : Machine) (ctx size flags : U64) : List U64 :=
  match vmaPlace hhdmOffset machine ctx size flags with
  | none => []
  | some (newRegion, placed) =>
      if newRegion = 0#64 then []
      else vmaDataFrames hhdmOffset ctx newRegion (2 ^ 52) placed 0#64

/-! Pages in a row -/

theorem pageNumber_toNat_mod (virt : U64) : (pageNumber virt).toNat = virt.toNat / 4096 % 2 ^ 36 := by
  rw [pageNumber, BitVec.extractLsb'_toNat, Nat.shiftRight_eq_div_pow]

/-- The page `j` pages behind `first`, where the address has 48 bits. -/
theorem pageNumber_add (j : Nat) (below : first.toNat + j * 4096 < 2 ^ 48) :
    (pageNumber (first + BitVec.ofNat 64 j * pageSize)).toNat = first.toNat / 4096 + j := by
  have address : (first + BitVec.ofNat 64 j * pageSize).toNat = first.toNat + j * 4096 := by
    unfold pageSize
    rw [BitVec.toNat_add, BitVec.toNat_mul, BitVec.toNat_ofNat, BitVec.toNat_ofNat]
    omega
  rw [pageNumber_toNat_mod, address]
  omega

/-- The last of the frames that the page gets where they are mapped in a row from `first` on. -/
def backingFrame (first : U64) : (data : List Frame) → (virt : U64) → Option Frame
  | [], _ => none
  | frame :: data, virt =>
      (backingFrame (first + pageSize) data virt).or
        (if pageNumber virt = pageNumber first then some frame else none)

theorem backingFrame_outside
    (outside : ∀ j < data.length, pageNumber virt ≠ pageNumber (first + BitVec.ofNat 64 j * pageSize)) :
    backingFrame first data virt = none := by
  induction data generalizing first with
  | nil => rfl
  | cons frame data inductionHypothesis =>
      have here := outside 0 (Nat.zero_lt_succ _)
      rw [BitVec.zero_mul, BitVec.add_zero] at here
      rw [backingFrame, if_neg here, inductionHypothesis]
      · rfl
      · intro j below
        have later := outside (j + 1) (Nat.succ_lt_succ below)
        have next : first + pageSize + BitVec.ofNat 64 j * pageSize =
            first + BitVec.ofNat 64 (j + 1) * pageSize := by
          unfold pageSize
          rw [BitVec.ofNat_add]
          bv_omega
        rw [next]
        exact later

theorem backingFrame_inside (room : first.toNat + data.length * 4096 ≤ 2 ^ 48) {j : Nat}
    (below : j < data.length) :
    backingFrame first data (first + BitVec.ofNat 64 j * pageSize) = some data[j] := by
  induction data generalizing first j with
  | nil => exact absurd below (Nat.not_lt_zero _)
  | cons frame data inductionHypothesis =>
      rw [List.length_cons] at room below
      have next : (first + pageSize).toNat = first.toNat + 4096 := by
        unfold pageSize
        rw [BitVec.toNat_add, BitVec.toNat_ofNat]
        omega
      have laterRoom : (first + pageSize).toNat + data.length * 4096 ≤ 2 ^ 48 := by omega
      cases j with
      | zero =>
          rw [backingFrame, backingFrame_outside, BitVec.zero_mul, BitVec.add_zero, if_pos rfl]
          · rfl
          · intro j inside same
            have here := @pageNumber_add first 0 (by omega)
            have there := @pageNumber_add (first + pageSize) j (by omega)
            rw [← same] at there
            omega
      | succ j =>
          have later := inductionHypothesis laterRoom (Nat.lt_of_succ_lt_succ below)
          have same : first + pageSize + BitVec.ofNat 64 j * pageSize =
              first + BitVec.ofNat 64 (j + 1) * pageSize := by
            unfold pageSize
            rw [BitVec.ofNat_add]
            bv_omega
          rw [same] at later
          rw [backingFrame, later]
          rfl

/-- The pages from `first` on have got these frames, which were free, and no other translation
has changed. -/
structure PagesBacked (hhdmOffset : U64) (kernel : Frame) (first : U64) (data : List Frame)
    (before after : Machine) : Prop where
  advances : Advances hhdmOffset kernel ∅ before after
  stillFree : ∀ page ∈ after.free, page ∈ before.free
  wasFree : ∀ frame ∈ data, frame.address ∈ before.free
  inUse : ∀ frame ∈ data, InUse hhdmOffset kernel after frame
  distinct : data.Nodup
  translation : ∀ virt, virtToPhys hhdmOffset after.memory (kernel.pointer hhdmOffset) virt =
    ((backingFrame first data virt).map Frame.address).getD
      (virtToPhys hhdmOffset before.memory (kernel.pointer hhdmOffset) virt)

namespace PagesBacked

theorem nil (usable : machine.stack.Usable)
    (space : AddressSpace hhdmOffset machine kernel Set.univ) :
    PagesBacked hhdmOffset kernel first [] machine machine where
  advances := .refl usable space
  stillFree := fun _ free => free
  wasFree := fun _ none => nomatch none
  inUse := fun _ none => nomatch none
  distinct := List.nodup_nil
  translation := fun _ => rfl

theorem single {created : List Frame} (usable : before.stack.Usable) (valid : EntryFlags flags)
    (nonzero : frame ≠ 0#40)
    (backed : Backed hhdmOffset kernel Set.univ first flags frame created before after) :
    PagesBacked hhdmOffset kernel first [frame] before after where
  advances := (Advances.of_mapped nonzero valid usable backed.mapped).1
  stillFree := fun _ free => backed.mapped.touched.still_free free
  wasFree := by
    intro other isFrame
    rw [List.mem_singleton.mp isFrame]
    exact backed.mapped.touched.takes.taken_free List.mem_cons_self
  inUse := by
    intro other isFrame
    rw [List.mem_singleton.mp isFrame]
    refine ⟨backed.mapped.touched.takes.taken_notFree usable List.mem_cons_self, ?_⟩
    intro path membership reached
    exact (backed.quiet _ frame.holds_pointer).notTable path membership frame reached
      frame.holds_pointer
  distinct := List.nodup_singleton frame
  translation := by
    intro virt
    rw [virtToPhys_eq, virtToPhys_eq, backed.mapped.leaf virt (Set.mem_univ _), backingFrame,
      backingFrame, Option.none_or]
    split_ifs
    · exact valid.masked frame
    · rfl

theorem cons (here : PagesBacked hhdmOffset kernel first [frame] before middle)
    (later : PagesBacked hhdmOffset kernel (first + pageSize) data middle after) :
    PagesBacked hhdmOffset kernel first (frame :: data) before after where
  advances := Set.empty_union ∅ ▸ here.advances.trans later.advances
  stillFree := fun page free => here.stillFree page (later.stillFree page free)
  wasFree := by
    intro other membership
    rcases List.mem_cons.mp membership with rfl | behind
    · exact here.wasFree _ List.mem_cons_self
    · exact here.stillFree _ (later.wasFree _ behind)
  inUse := by
    intro other membership
    rcases List.mem_cons.mp membership with rfl | behind
    · exact later.advances.inUse _ (here.inUse _ List.mem_cons_self)
    · exact later.inUse _ behind
  distinct := by
    refine List.nodup_cons.mpr ⟨fun again => ?_, later.distinct⟩
    exact (here.inUse frame List.mem_cons_self).notFree (later.wasFree frame again)
  translation := by
    intro virt
    rw [later.translation, here.translation, backingFrame, backingFrame, backingFrame,
      Option.none_or]
    cases backingFrame (first + pageSize) data virt with
    | none => rfl
    | some last => rfl

end PagesBacked

/-! The mapping loop -/

/-- The loop backs its pages one after the other, all of them if it ends well. -/
theorem vmaMapPages_backed (fuel : Nat) {i pages : U64}
    (region : MappingRegion hhdmOffset kernel ctx record machine)
    (isPages : mappedPages (Memory.load64 machine.memory (regionSize (record.pointer hhdmOffset))) =
      pages)
    (valid : EntryFlags
      (Memory.load64 machine.memory (regionFlags (record.pointer hhdmOffset))))
    (enough : TurnsEnough hhdmOffset (ctx.pointer hhdmOffset) (record.pointer hhdmOffset) fuel
      machine i) :
    let loop := vmaMapPages hhdmOffset (ctx.pointer hhdmOffset) (record.pointer hhdmOffset) fuel
      machine i
    ∃ data : List Frame,
      vmaDataFrames hhdmOffset (ctx.pointer hhdmOffset) (record.pointer hhdmOffset) fuel machine i =
        data.map Frame.address ∧
      i.toNat + data.length ≤ max i.toNat pages.toNat ∧
      (loop.1 = true → pages.toNat ≤ i.toNat + fuel → pages.toNat ≤ i.toNat + data.length) ∧
      PagesBacked hhdmOffset kernel
        (Memory.load64 machine.memory (regionStart (record.pointer hhdmOffset)) + i * pageSize) data
        machine loop.2 := by
  induction fuel generalizing machine i with
  | zero =>
      exact ⟨[], rfl, Nat.le_max_left _ _, fun _ few => few, .nil region.usable region.space⟩
  | succ fuel inductionHypothesis =>
      intro loop
      by_cases inside : i < pages
      · obtain ⟨enoughHere, enoughLater⟩ := enough (isPages.symm ▸ inside)
        have below := BitVec.lt_def.mp inside
        rcases vmaMapPage_backed region valid enoughHere with
          failed | ⟨frame, created, nonzero, isFrame, nonnull, backed⟩
        · have stopped : loop = (false, machine) := by
            simp only [loop, vmaMapPages, isPages, if_pos inside, failed, if_true]
          refine ⟨[], ?_, Nat.le_max_left _ _, ?_, ?_⟩
          · simp only [vmaDataFrames, isPages, if_pos inside, failed, if_true, List.map_nil]
          · rw [stopped]
            exact fun done => absurd done Bool.false_ne_true
          · rw [stopped]
            exact .nil region.usable region.space
        · have here := PagesBacked.single region.usable valid nonzero backed
          have continues : loop = vmaMapPages hhdmOffset (ctx.pointer hhdmOffset)
              (record.pointer hhdmOffset) fuel (vmaMapPage hhdmOffset (ctx.pointer hhdmOffset)
                (record.pointer hhdmOffset) machine i).2 (i + 1#64) := by
            simp only [loop, vmaMapPages, isPages, if_pos inside, if_neg nonnull]
          -- the turn leaves the record as it is
          have same := here.advances.same record (Set.notMem_empty _) region.recordInUse
          have sameStart := Frame.load64_start_congr same
          have sameSize := @Frame.load64_congr hhdmOffset 8#64 _ _ _ same (by decide)
          have sameFlags := @Frame.load64_congr hhdmOffset 16#64 _ _ _ same (by decide)
          have next : Memory.load64 machine.memory (regionStart (record.pointer hhdmOffset)) +
              (i + 1#64) * pageSize =
              Memory.load64 machine.memory (regionStart (record.pointer hhdmOffset)) +
                i * pageSize + pageSize := by
            rw [BitVec.add_mul, BitVec.one_mul, BitVec.add_assoc]
          have count : (i + 1#64).toNat = i.toNat + 1 := by bv_omega
          unfold regionStart regionSize regionFlags at *
          rw [← sameFlags] at valid
          obtain ⟨data, isData, short, full, later⟩ :=
            inductionHypothesis (region.advance here.advances) (sameSize.symm ▸ isPages) valid
              enoughLater
          rw [sameStart, next] at later
          rw [count] at short full
          refine ⟨frame :: data, ?_, ?_, ?_, ?_⟩
          · rw [List.map_cons, ← isData, ← isFrame]
            simp only [vmaDataFrames, regionSize, isPages, if_pos inside, if_neg nonnull]
          · rw [List.length_cons]
            omega
          · rw [continues, List.length_cons]
            intro done few
            have all := full done (by omega)
            omega
          · rw [continues]
            exact here.cons later
      · have ended : loop = (true, machine) := by
          simp only [loop, vmaMapPages, isPages, if_neg inside]
        have passed : pages.toNat ≤ i.toNat := Nat.le_of_not_lt fun below =>
          inside (BitVec.lt_def.mpr below)
        refine ⟨[], ?_, Nat.le_max_left _ _, fun _ _ => passed, ?_⟩
        · simp only [vmaDataFrames, isPages, if_neg inside, List.map_nil]
        · rw [ended]
          exact .nil region.usable region.space

/-! The whole call -/

theorem SameTables.trans {memory middle other : Memory}
    (first : SameTables hhdmOffset kernel Set.univ memory middle)
    (second : SameTables hhdmOffset kernel Set.univ middle other) :
    SameTables hhdmOffset kernel Set.univ memory other := by
  intro path membership table reached address inTable
  have reachedLater := (first.follow membership).trans reached
  rw [second path membership table reachedLater address inTable,
    first path membership table reached address inTable]

theorem SameTables.virtToPhys {memory other : Memory}
    (same : SameTables hhdmOffset kernel Set.univ memory other) (virt : U64) :
    virtToPhys hhdmOffset other (kernel.pointer hhdmOffset) virt =
      Nekonix.virtToPhys hhdmOffset memory (kernel.pointer hhdmOffset) virt := by
  rw [virtToPhys_eq, virtToPhys_eq, same.leafEntry (Set.mem_univ _)]

theorem InUse.of_tables (inUse : InUse hhdmOffset kernel before frame)
    (same : SameTables hhdmOffset kernel Set.univ before.memory after.memory)
    (stillFree : ∀ page ∈ after.free, page ∈ before.free) : InUse hhdmOffset kernel after frame := by
  refine ⟨fun free => inUse.notFree (stillFree _ free), fun path membership reached => ?_⟩
  rw [same.follow membership] at reached
  exact inUse.notTable path membership reached

/-- Placing a record writes no table. -/
theorem SoundContext.placed_tables {previous : Frame} {front back : List Frame}
    (sound : SoundContext hhdmOffset pool kernel ctx (front ++ previous :: back) before)
    (requested : RecordRequested hhdmOffset ctx (front ++ previous :: back) record before middle)
    (available : before.free ≠ [])
    (linked : LinkedBehind hhdmOffset size flags record previous middle after) :
    SameTables hhdmOffset kernel Set.univ before.memory after.memory := by
  have takes := requested.takes available
  have early := takes.sameTables sound.space
  have between := sound.advance (.of_takes takes sound.usable sound.space) requested.drawn
  have inUse := takes.inUse_taken sound.usable sound.space (List.mem_cons_self (a := record))
  refine early.trans ?_
  intro path membership table reached address inTable
  have offRecord : ¬record.Holds hhdmOffset address := fun inRecord =>
    inUse.notTable path membership (inRecord.unique inTable ▸ reached)
  have offPrevious : ¬previous.Holds hhdmOffset address := fun inPrevious =>
    (between.inUse previous (by simp)).notTable path membership (inPrevious.unique inTable ▸ reached)
  rw [linked.linked.outside address offRecord offPrevious, clearRegion_outside offRecord]

/-- Records, frames in use and translations are what they were. -/
structure RegionsKept (hhdmOffset : U64) (pool : List U64) (kernel ctx : Frame)
    (records : List Frame) (before after : Machine) : Prop where
  sound : SoundContext hhdmOffset pool kernel ctx records after
  fields : ∀ frame ∈ records, SameFields hhdmOffset before.memory after.memory frame
  inUse : ∀ frame, InUse hhdmOffset kernel before frame → InUse hhdmOffset kernel after frame
  translation : ∀ virt, virtToPhys hhdmOffset after.memory (kernel.pointer hhdmOffset) virt =
    virtToPhys hhdmOffset before.memory (kernel.pointer hhdmOffset) virt

theorem RegionsKept.refl {records : List Frame}
    (sound : SoundContext hhdmOffset pool kernel ctx records machine) :
    RegionsKept hhdmOffset pool kernel ctx records machine machine :=
  ⟨sound, fun _ _ => .of_same fun _ _ => rfl, fun _ inUse => inUse, fun _ => rfl⟩

/-- A new region, which begins where the one of `previous` ends, and the frames of its pages.
`returned` is what the call returns. -/
structure RegionAllocated (hhdmOffset : U64) (pool : List U64) (kernel ctx : Frame)
    (size flags : U64) (front : List Frame) (previous record : Frame) (back data : List Frame)
    (returned : U64) (before after : Machine) : Prop where
  behind : GoesBehind hhdmOffset before.memory size front previous back
  sound : SoundContext hhdmOffset pool kernel ctx (front ++ previous :: record :: back) after
  isStart : Memory.load64 after.memory (regionStart (record.pointer hhdmOffset)) =
    regionEnd before.memory (previous.pointer hhdmOffset)
  isSize : Memory.load64 after.memory (regionSize (record.pointer hhdmOffset)) = size
  isPrev : Memory.load64 after.memory (regionPrev (record.pointer hhdmOffset)) =
    previous.pointer hhdmOffset
  fields : ∀ frame ∈ front ++ previous :: back,
    SameFields hhdmOffset before.memory after.memory frame
  kept : ∀ frame, InUse hhdmOffset kernel before frame → InUse hhdmOffset kernel after frame
  same : ∀ frame, frame ≠ previous → InUse hhdmOffset kernel before frame →
    SameFrame hhdmOffset before.memory after.memory frame
  wasFree : ∀ frame ∈ record :: data, frame.address ∈ before.free
  inUse : ∀ frame ∈ data, InUse hhdmOffset kernel after frame
  distinct : (record :: data).Nodup
  isData : vmaBackingFrames hhdmOffset before (ctx.pointer hhdmOffset) size flags =
    data.map Frame.address
  short : data.length ≤ (mappedPages size).toNat
  returns : returned ≠ 0#64 → returned = regionEnd before.memory (previous.pointer hhdmOffset) ∧
    data.length = (mappedPages size).toNat
  translation : ∀ virt, virtToPhys hhdmOffset after.memory (kernel.pointer hhdmOffset) virt =
    ((backingFrame (regionEnd before.memory (previous.pointer hhdmOffset)) data virt).map
      Frame.address).getD (virtToPhys hhdmOffset before.memory (kernel.pointer hhdmOffset) virt)

/-- The record has been placed and the mapping loop has run. -/
theorem RegionAllocated.of_placed {previous : Frame} {front back : List Frame} {returned : U64}
    {placed : Machine} (sound : SoundContext hhdmOffset pool kernel ctx (front ++ previous :: back) before)
    (allowed : AllocAllowed hhdmOffset ctx before size flags)
    (requested : RecordRequested hhdmOffset ctx (front ++ previous :: back) record before middle)
    (nonnull : record.pointer hhdmOffset ≠ 0#64)
    (behind : GoesBehind hhdmOffset before.memory size front previous back)
    (linked : FilledBehind hhdmOffset size flags record previous middle placed)
    (isPlaced : vmaPlace hhdmOffset before (ctx.pointer hhdmOffset) size flags =
      some (record.pointer hhdmOffset, placed))
    (allocated : vmaAlloc hhdmOffset before (ctx.pointer hhdmOffset) size flags =
      some (returned, after)) :
    ∃ data, RegionAllocated hhdmOffset pool kernel ctx size flags front previous record back data
      returned before after := by
  have takes := requested.takes allowed.available
  have different : record ≠ previous := by
    rintro rfl
    exact requested.fresh (by simp)
  have new := sound.placed requested nonnull allowed.available linked.toLinkedBehind
  have listed : record ∈ front ++ previous :: record :: back := by simp
  have longer : front ++ previous :: back ⊆ front ++ previous :: record :: back :=
    (((List.sublist_cons_self record back).cons_cons previous).append_left front).subset
  have tables := sound.placed_tables requested allowed.available linked.toLinkedBehind
  have region : MappingRegion hhdmOffset kernel ctx record placed :=
    { usable := new.sound.usable
      space := new.sound.space
      context := new.sound.inUse ctx List.mem_cons_self
      pagemap := new.sound.pagemap
      recordInUse := new.sound.inUse record (List.mem_cons_of_mem _ listed) }
  obtain ⟨data, isData, short, full, backed⟩ := vmaMapPages_backed (2 ^ 52) region
    (congrArg mappedPages new.size) (new.flags.symm ▸ allowed.valid)
    (allowed.enough _ _ isPlaced nonnull)
  have drawn := vmaMapPages_drawn hhdmOffset (ctx.pointer hhdmOffset) (record.pointer hhdmOffset)
    (2 ^ 52) placed 0#64
  unfold vmaAlloc at allocated
  rw [isPlaced, Option.map_some] at allocated
  dsimp only at allocated
  rw [if_neg nonnull] at allocated
  generalize vmaMapPages hhdmOffset (ctx.pointer hhdmOffset) (record.pointer hhdmOffset) (2 ^ 52)
    placed 0#64 = loop at full backed drawn allocated
  obtain ⟨mapped, last⟩ := loop
  obtain rfl : last = after := by
    dsimp only at allocated
    split_ifs at allocated <;> cases allocated <;> rfl
  -- what the placing and then the loop leave of a record
  have early : ∀ frame ∈ front ++ previous :: back,
      SameFields hhdmOffset before.memory placed.memory frame := by
    intro frame membership
    have cleared := SameFields.of_same (requested.kept frame (List.mem_cons_of_mem _ membership))
    by_cases here : frame = previous
    · rw [here] at cleared ⊢
      exact cleared.trans (linked.fields different)
    · refine cleared.trans (.of_same fun address inFrame => ?_)
      apply linked.linked.outside
      · exact fun inRecord => requested.fresh
          (List.mem_cons_of_mem _ (inRecord.unique inFrame ▸ membership))
      · exact fun inPrevious => here (inFrame.unique inPrevious)
  have late : ∀ frame ∈ front ++ previous :: record :: back,
      SameFields hhdmOffset placed.memory last.memory frame := fun frame membership => .of_same <|
    backed.advances.same frame (Set.notMem_empty _)
      (new.sound.inUse frame (List.mem_cons_of_mem _ membership))
  have previousEnd := (SameFields.of_same (requested.kept previous (by simp))).regionEnd
  have start := (linked.linked.start different).trans previousEnd
  rw [start, BitVec.zero_mul, BitVec.add_zero] at backed
  have wasFree : ∀ page ∈ placed.free, page ∈ before.free := by
    intro page free
    rw [Machine.free, linked.stack] at free
    exact requested.drawn.mem free
  refine ⟨data, ?_⟩
  exact
    { behind
      sound := new.sound.advance backed.advances drawn
      isStart := (late record listed).start.trans start
      isSize := (late record listed).size.trans new.size
      isPrev := (late record listed).prev.trans (linked.prev different)
      fields := fun frame membership =>
        (early frame membership).trans (late frame (longer membership))
      kept := fun frame inUse =>
        backed.advances.inUse frame (inUse.of_tables tables wasFree)
      same := by
        intro frame other inUse address inFrame
        have offRecord : ¬record.Holds hhdmOffset address := fun inRecord =>
          inUse.notFree (inRecord.unique inFrame ▸ new.wasFree)
        rw [backed.advances.same frame (Set.notMem_empty _) (inUse.of_tables tables wasFree) address
            inFrame,
          linked.linked.outside address offRecord fun inPrevious => other (inFrame.unique inPrevious),
          clearRegion_outside offRecord]
        exact (Advances.of_takes takes sound.usable sound.space).same frame (Set.notMem_empty _) inUse
          address inFrame
      wasFree := by
        intro frame membership
        rcases List.mem_cons.mp membership with rfl | inData
        · exact new.wasFree
        · exact wasFree _ (backed.wasFree frame inData)
      inUse := fun frame inData => backed.inUse frame inData
      distinct := List.nodup_cons.mpr ⟨fun again =>
        region.recordInUse.notFree (backed.wasFree record again), backed.distinct⟩
      isData := by
        rw [vmaBackingFrames, isPlaced]
        dsimp only
        rw [if_neg nonnull, isData]
      short := by simpa using short
      returns := by
        intro success
        dsimp only at allocated
        split_ifs at allocated with done
        · cases allocated
          refine ⟨(late record listed).start.trans start, ?_⟩
          have few := mappedPages_lt size
          have all := full done (by simpa using few.le)
          simp only [BitVec.toNat_ofNat, Nat.zero_mod, Nat.zero_add, Nat.zero_max] at short all
          exact Nat.le_antisymm short all
        · cases allocated
          exact absurd rfl success
      translation := by
        intro virt
        rw [backed.translation, tables.virtToPhys] }

/-- Taking frames that nothing holds. -/
theorem RegionsKept.of_takes {records taken : List Frame}
    (sound : SoundContext hhdmOffset pool kernel ctx records before)
    (takes : TakesFrames hhdmOffset taken before after) (drawn : Drawn before after) :
    RegionsKept hhdmOffset pool kernel ctx records before after := by
  have advances := Advances.of_takes takes sound.usable sound.space
  have same := takes.sameTables sound.space
  refine ⟨sound.advance advances drawn, fun frame membership => ?_, advances.inUse, same.virtToPhys⟩
  exact .of_same (advances.same frame (Set.notMem_empty _)
    (sound.inUse frame (List.mem_cons_of_mem _ membership)))

/-- Either no region is placed and nothing changes, or there is a new one. -/
theorem SoundContext.alloc_region {records : List Frame} {newRegion returned : U64}
    {placed : Machine} (sound : SoundContext hhdmOffset pool kernel ctx records before)
    (allowed : AllocAllowed hhdmOffset ctx before size flags)
    (isPlaced : vmaPlace hhdmOffset before (ctx.pointer hhdmOffset) size flags =
      some (newRegion, placed))
    (allocated : vmaAlloc hhdmOffset before (ctx.pointer hhdmOffset) size flags =
      some (returned, after)) :
    newRegion = 0#64 ∧ returned = 0#64 ∧
        RegionsKept hhdmOffset pool kernel ctx records before after ∨
      ∃ front previous record back data, records = front ++ previous :: back ∧
        newRegion = record.pointer hhdmOffset ∧ record.pointer hhdmOffset ≠ 0#64 ∧
        RegionAllocated hhdmOffset pool kernel ctx size flags front previous record back data
          returned before after := by
  obtain ⟨record, middle, requested⟩ := sound.request
  obtain ⟨_, _, alsoPlaced, cases⟩ := sound.place_spec flags requested allowed.inside
  rw [isPlaced] at alsoPlaced
  cases alsoPlaced
  rcases cases with ⟨rfl, unplaced⟩ | ⟨rfl, nonnull, front, previous, back, rfl, behind, linked⟩
  · left
    unfold vmaAlloc at allocated
    rw [isPlaced, Option.map_some] at allocated
    dsimp only at allocated
    rw [if_pos rfl] at allocated
    cases allocated
    refine ⟨rfl, rfl, ?_⟩
    rcases unplaced with ⟨-, rfl⟩ | ⟨-, rfl⟩
    · exact .refl sound
    · exact .of_takes sound (requested.takes allowed.available) requested.drawn
  · obtain ⟨data, isAllocated⟩ := RegionAllocated.of_placed sound allowed requested nonnull behind
      linked isPlaced allocated
    exact Or.inr ⟨front, previous, record, back, data, rfl, rfl, nonnull, isAllocated⟩

/-- The call succeeds, with the record it gets. -/
structure AllocSucceeds (hhdmOffset : U64) (ctx : Frame) (size flags : U64) (record : Frame)
    (start : U64) (before after : Machine) : Prop where
  allowed : AllocAllowed hhdmOffset ctx before size flags
  nonnull : record.pointer hhdmOffset ≠ 0#64
  placed : ∃ placed, vmaPlace hhdmOffset before (ctx.pointer hhdmOffset) size flags =
    some (record.pointer hhdmOffset, placed)
  allocated : vmaAlloc hhdmOffset before (ctx.pointer hhdmOffset) size flags = some (start, after)
  supply : before.free.length ≤ after.free.length + 5

/-- Five free frames are enough for a region that is mapped in one turn. -/
theorem SoundContext.alloc_single {records : List Frame}
    (sound : SoundContext hhdmOffset pool kernel ctx records before) (rooted : records ≠ [])
    (mapped : ∀ frame : Frame, frame.address ∈ pool → frame.pointer hhdmOffset ≠ 0#64)
    (pagemapNonnull : kernel.pointer hhdmOffset ≠ 0#64)
    (inside : EndsInList before.memory (ctx.pointer hhdmOffset) size) (valid : EntryFlags flags)
    (single : mappedPages size = 1#64) (supply : 5 ≤ before.free.length) :
    ∃ front previous record back data start after, records = front ++ previous :: back ∧
      AllocSucceeds hhdmOffset ctx size flags record start before after ∧
      RegionAllocated hhdmOffset pool kernel ctx size flags front previous record back data start
        before after ∧
      start = regionEnd before.memory (previous.pointer hhdmOffset) := by
  have available : before.free ≠ [] := List.ne_nil_of_length_pos (by omega)
  obtain ⟨record, middle, requested⟩ := sound.request
  have takes := requested.takes available
  have nonnull := mapped record (sound.pooled _ (takes.taken_free List.mem_cons_self))
  have ctxNonnull := mapped ctx (sound.fromPool ctx List.mem_cons_self)
  obtain ⟨_, placed, isPlaced, cases⟩ := sound.place_spec flags requested inside
  rcases cases with ⟨rfl, ⟨none | none | none, -⟩ | ⟨null, -⟩⟩ |
    ⟨rfl, -, front, previous, back, rfl, behind, linked⟩
  · exact absurd none ctxNonnull
  · exact absurd none rooted
  · exact absurd none pagemapNonnull
  · exact absurd null nonnull
  have new := sound.placed requested nonnull available linked.toLinkedBehind
  have listed : record ∈ front ++ previous :: record :: back := by simp
  have region : MappingRegion hhdmOffset kernel ctx record placed :=
    { usable := new.sound.usable
      space := new.sound.space
      context := new.sound.inUse ctx List.mem_cons_self
      pagemap := new.sound.pagemap
      recordInUse := new.sound.inUse record (List.mem_cons_of_mem _ listed) }
  have count : before.free.length = placed.free.length + 1 := by
    rw [takes.length_free, List.length_singleton, Machine.free, Machine.free, linked.stack]
  have validFlags := new.flags.symm ▸ valid
  have enough : TurnEnough hhdmOffset (ctx.pointer hhdmOffset) (record.pointer hhdmOffset) placed
      0#64 := Or.inr ((Nat.add_le_add_left (missingTables_le _ _ _ _) 1).trans (by omega))
  obtain ⟨backed, spent⟩ := @vmaMapPage_supply _ _ _ _ _ 0#64 region validFlags (by omega)
  have same := (vmaMapPage_spec region validFlags enough).1.same record (Set.notMem_empty _)
    region.recordInUse
  have isSingle : mappedPages (Memory.load64 placed.memory
      (regionSize (record.pointer hhdmOffset))) = 1#64 := new.size.symm ▸ single
  obtain ⟨turns, loop⟩ := vmaMapPages_single isSingle enough (Frame.load64_congr same (by decide))
    backed (2 ^ 52 - 2)
  have fuel : 2 ^ 52 - 2 + 2 = 2 ^ 52 := by decide
  rw [fuel] at turns loop
  have allowed : AllocAllowed hhdmOffset ctx before size flags :=
    { available
      inside
      valid
      enough := by
        intro other otherPlaced isOther _
        rw [isPlaced] at isOther
        cases isOther
        exact turns }
  have allocated : vmaAlloc hhdmOffset before (ctx.pointer hhdmOffset) size flags =
      some (Memory.load64 placed.memory (regionStart (record.pointer hhdmOffset)),
        (vmaMapPage hhdmOffset (ctx.pointer hhdmOffset) (record.pointer hhdmOffset) placed
          0#64).2) := by
    unfold vmaAlloc
    rw [isPlaced, Option.map_some]
    dsimp only
    rw [if_neg nonnull, loop, if_pos rfl]
    exact congrArg some (Prod.ext (Frame.load64_start_congr same) rfl)
  obtain ⟨data, isAllocated⟩ := RegionAllocated.of_placed sound allowed requested nonnull behind
    linked isPlaced allocated
  refine ⟨front, previous, record, back, data, _, _, rfl,
    ⟨allowed, nonnull, ⟨placed, isPlaced⟩, allocated, by omega⟩, isAllocated, ?_⟩
  exact (Frame.load64_start_congr same).symm.trans isAllocated.isStart

/-- On a cleared machine: a new context, and a first region. -/
structure FirstRegion (count : Nat) (size : U64) (ctx root record : Frame) (data : List Frame)
    (start after : Machine) : Prop where
  created : vmaCreateContext 0#64 (Machine.cleared count) (Frame.pointer 0#64 1#40) =
    (ctx.pointer 0#64, start)
  new : NewContext 0#64 1#40 ctx root (Machine.cleared count) start
  succeeds : AllocSucceeds 0#64 ctx size heapFlags record pageSize start after
  region : RegionAllocated 0#64 (Machine.cleared count).free 1#40 ctx size heapFlags [] root record
    [] data pageSize start after

theorem identity_nonnull_pool {count : Nat} (small : count < 2 ^ 39) (frame : Frame)
    (free : frame.address ∈ (Machine.cleared count).free) : frame.pointer 0#64 ≠ 0#64 := by
  refine identity_nonnull frame ?_
  rintro rfl
  exact absurd (Machine.mem_free_cleared small free).1 (by decide)

theorem firstRegion_exists (count : Nat) (small : count < 2 ^ 39) (enough : 7 ≤ count)
    (single : mappedPages size = 1#64) :
    ∃ ctx root record data start after,
      FirstRegion count size ctx root record data start after := by
  have ready := contextReady_cleared count small (by omega)
  obtain ⟨ctx, _, start, created, -⟩ :=
    @vmaCreateContext_spec 0#64 (Machine.cleared count) (Frame.pointer 0#64 1#40) ready.usable
      ready.enough
  obtain ⟨root, new⟩ := ready.new created
  have supply := new.supply
  rw [Machine.length_free_cleared small] at supply
  obtain ⟨front, previous, record, back, data, begin, after, split, succeeds, region, isBegin⟩ :=
    @SoundContext.alloc_single _ size heapFlags _ _ _ _ _ new.sound (by simp)
      (identity_nonnull_pool small) ready.pagemapNonnull
      (fun regions list => Or.inl (by rw [list.unique new.sound.list]; rfl)) ⟨by decide, by decide⟩
      single (by omega)
  cases front with
  | cons other front => simp at split
  | nil =>
      obtain ⟨rfl, rfl⟩ := List.cons_eq_cons.mp split
      have isPage : begin = pageSize := by
        rw [isBegin, regionEnd, new.start, new.size]
        decide
      subst isPage
      exact ⟨ctx, root, record, data, start, after, created, new, succeeds, region⟩

/-! Regions whose pages are all backed -/

/-- Each page of the region leads to one of the frames, and no two of them to the same one. -/
structure RegionBacked (translate : U64 → U64) (frames : List U64) (start size : U64) : Prop where
  backed : ∀ i < size, translate (start + i * pageSize) ∈ frames
  distinct : ∀ i < size, ∀ j < size,
    translate (start + i * pageSize) = translate (start + j * pageSize) → i = j

/-- There are as many frames as pages. -/
theorem RegionBacked.size_le {translate : U64 → U64} {frames : List U64} {start size : U64}
    (region : RegionBacked translate frames start size) : size.toNat ≤ frames.length := by
  have below : ∀ i ∈ List.range size.toNat, BitVec.ofNat 64 i < size ∧
      (BitVec.ofNat 64 i).toNat = i := by
    intro i inRange
    have less := List.mem_range.mp inRange
    have same : (BitVec.ofNat 64 i).toNat = i := by
      rw [BitVec.toNat_ofNat]
      omega
    exact ⟨BitVec.lt_def.mpr (same.symm ▸ less), same⟩
  have distinct : ((List.range size.toNat).map fun i =>
      translate (start + BitVec.ofNat 64 i * pageSize)).Nodup := by
    refine List.Nodup.map_on ?_ List.nodup_range
    intro i inRange j otherInRange same
    have equal := region.distinct _ (below i inRange).1 _ (below j otherInRange).1 same
    rw [← (below i inRange).2, equal, (below j otherInRange).2]
  have subset : ((List.range size.toNat).map fun i =>
      translate (start + BitVec.ofNat 64 i * pageSize)) ⊆ frames := by
    intro page membership
    obtain ⟨i, inRange, rfl⟩ := List.mem_map.mp membership
    exact region.backed _ (below i inRange).1
  have count := (distinct.subperm subset).length_le
  rwa [List.length_map, List.length_range] at count

theorem mappedPages_toNat (size : U64) :
    (mappedPages size).toNat = (size.toNat + 4095) % 2 ^ 64 / 4096 := by
  unfold mappedPages alignUp divRoundUp pageSize
  have mask : (4096#64 - 1#64 : U64) = 4095#64 := rfl
  rw [mask, BitVec.toNat_udiv, BitVec.toNat_mul, BitVec.toNat_udiv, BitVec.toNat_add]
  simp only [BitVec.toNat_ofNat, Nat.reducePow, Nat.reduceMod]
  omega

/-- A region of more than one page has fewer frames than pages. -/
theorem mappedPages_lt_size (size : U64) (more : 2 ≤ size.toNat) :
    (mappedPages size).toNat < size.toNat := by
  rw [mappedPages_toNat]
  omega

theorem virtToPhys_cleared (count : Nat) (kernel : Frame) (virt : U64) :
    virtToPhys hhdmOffset (Machine.cleared count).memory (kernel.pointer hhdmOffset) virt =
      0#64 := by
  rw [virtToPhys_eq, leafEntry_of_cleared (Machine.tables_cleared count kernel _), Option.getD_none]
  rfl

end Nekonix
