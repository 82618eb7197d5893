import Nekonix.Mm.Vma.Holdings

/-!
# The pages that `vma_free` gives back

`vma_free` looks the frames of a region up in the page table, page by page.  Where the pages
still have the frames that the region got, and the others have none, it gives back those.
-/

namespace Nekonix

open FlatMemory RadixTable LinkedList

variable {hhdmOffset first : U64} {pool : List U64} {kernel ctx record frame : Frame}
  {records data : List Frame} {machine before middle after : Machine} {count : Nat}

/-- What the loop of `vma_free` hands to `pmm_free_page`. -/
def vmaFreedPages (hhdmOffset ctx region : U64) : (fuel : Nat) → Machine → (i : U64) → List U64
  | 0, _, _ => []
  | fuel + 1, machine, i =>
      if i < Memory.load64 machine.memory (regionSize region) then
        virtToPhys hhdmOffset machine.memory (Memory.load64 machine.memory (contextPagemap ctx))
            (Memory.load64 machine.memory (regionStart region) + i * pageSize) ::
          vmaFreedPages hhdmOffset ctx region fuel (vmaFreeTurn hhdmOffset ctx region machine i)
            (i + 1#64)
      else
        []

/-- What `vma_free` hands to `pmm_free_page`, apart from `NULL`, for which that does nothing. -/
def vmaFreedFrames (hhdmOffset : U64) (machine : Machine) (ctx ptr : U64) : List U64 :=
  if ctx = 0#64 then
    []
  else
    match vmaFind machine.memory ptr (2 ^ 64) (Memory.load64 machine.memory (contextRoot ctx)) with
    | none => []
    | some region =>
        if region = 0#64 then
          []
        else
          (vmaFreedPages hhdmOffset ctx region (2 ^ 64) machine 0#64).filter (· ≠ 0#64) ++
            [physical hhdmOffset region]

theorem vmaFreedFrames_found {ctx region ptr : U64} (nonnull : ctx ≠ 0#64)
    (isFound : vmaFind machine.memory ptr (2 ^ 64)
      (Memory.load64 machine.memory (contextRoot ctx)) = some region) (isRegion : region ≠ 0#64) :
    vmaFreedFrames hhdmOffset machine ctx ptr =
      (vmaFreedPages hhdmOffset ctx region (2 ^ 64) machine 0#64).filter (· ≠ 0#64) ++
        [physical hhdmOffset region] := by
  rw [vmaFreedFrames, if_neg nonnull, isFound]
  exact if_neg isRegion

/-- The pages from `first` on have these frames, one after the other, and no frames after
that. -/
def Backs (hhdmOffset : U64) (kernel : Frame) (first : U64) (count : Nat) (data : List Frame)
    (machine : Machine) : Prop :=
  ∀ j < count, virtToPhys hhdmOffset machine.memory (kernel.pointer hhdmOffset)
    (first + BitVec.ofNat 64 j * pageSize) = (data[j]?.map Frame.address).getD 0#64

/-- Frames of data of the context: they came from the free stack, and no list or table has
them. -/
structure DataFrames (hhdmOffset : U64) (pool : List U64) (kernel ctx : Frame)
    (records data : List Frame) (machine : Machine) : Prop where
  distinct : data.Nodup
  fromPool : ∀ frame ∈ data, frame.address ∈ pool
  inUse : ∀ frame ∈ data, InUse hhdmOffset kernel machine frame
  other : ∀ frame ∈ data, frame ∉ ctx :: records

/-- The frames have been given back, and `count` pages from `first` on unmapped. -/
structure PagesReturned (hhdmOffset : U64) (kernel : Frame) (first : U64) (count : Nat)
    (data : List Frame) (before after : Machine) : Prop where
  free : after.free = before.free ++ data.map Frame.address
  inUse : ∀ frame ∉ data, InUse hhdmOffset kernel before frame → InUse hhdmOffset kernel after frame
  translation : ∀ virt,
    (∀ j < count, pageNumber virt ≠ pageNumber (first + BitVec.ofNat 64 j * pageSize)) →
    virtToPhys hhdmOffset after.memory (kernel.pointer hhdmOffset) virt =
      virtToPhys hhdmOffset before.memory (kernel.pointer hhdmOffset) virt

theorem Unmapped.inUse {virt : U64}
    (unmapped : Unmapped hhdmOffset kernel Set.univ virt before after)
    (inUse : InUse hhdmOffset kernel before frame) : InUse hhdmOffset kernel after frame := by
  refine ⟨?_, fun path membership reached => ?_⟩
  · rw [Machine.free, unmapped.stack]
    exact inUse.notFree
  · rw [unmapped.follow path membership] at reached
    exact inUse.notTable path membership reached

namespace PagesReturned

theorem of_unmapped {page : U64}
    (free : (pmmFreePage before page).free = before.free ++ data.map Frame.address)
    (inUse : ∀ frame ∉ data, InUse hhdmOffset kernel before frame →
      InUse hhdmOffset kernel (pmmFreePage before page) frame)
    (unmapped : Unmapped hhdmOffset kernel Set.univ first (pmmFreePage before page) after) :
    PagesReturned hhdmOffset kernel first 1 data before after where
  free := (congrArg PmmStack.frames unmapped.stack).trans free
  inUse := fun frame other used => unmapped.inUse (inUse frame other used)
  translation := by
    intro virt outside
    have different := outside 0 Nat.one_pos
    rw [BitVec.zero_mul, BitVec.add_zero] at different
    rw [virtToPhys_eq, unmapped.leaf virt (Set.mem_univ _), if_neg different, pmmFreePage_memory,
      virtToPhys_eq]

theorem trans {further : List Frame}
    (here : PagesReturned hhdmOffset kernel first 1 data before middle)
    (later : PagesReturned hhdmOffset kernel (first + pageSize) count further middle after) :
    PagesReturned hhdmOffset kernel first (count + 1) (data ++ further) before after where
  free := by rw [later.free, here.free, List.map_append, List.append_assoc]
  inUse := by
    intro frame other used
    rw [List.mem_append, not_or] at other
    exact later.inUse frame other.2 (here.inUse frame other.1 used)
  translation := by
    intro virt outside
    rw [later.translation, here.translation]
    · intro j isFirst
      exact outside j (by omega)
    · intro j below
      have behind := outside (j + 1) (by omega)
      have next : first + pageSize + BitVec.ofNat 64 j * pageSize =
          first + BitVec.ofNat 64 (j + 1) * pageSize := by
        unfold pageSize
        rw [BitVec.ofNat_add]
        bv_omega
      rw [next]
      exact behind

end PagesReturned

/-- One turn. -/
theorem SoundContext.returnPage (sound : SoundContext hhdmOffset pool kernel ctx records machine)
    {page virt : U64} (isPage : page = (data[0]?.map Frame.address).getD 0#64)
    (frames : DataFrames hhdmOffset pool kernel ctx records data machine) :
    GivesData hhdmOffset pool kernel ctx records machine page ∧
      PagesReturned hhdmOffset kernel virt 1 (data.take 1) machine
        (vmmUnmap hhdmOffset (pmmFreePage machine page) (kernel.pointer hhdmOffset) virt) := by
  cases data with
  | nil =>
      obtain rfl : page = 0#64 := isPage
      have same := pmmFreePage_null machine
      refine ⟨Or.inl rfl, @PagesReturned.of_unmapped _ _ _ _ _ _ 0#64 ?_ ?_ ?_⟩
      · rw [same, List.take_nil, List.map_nil, List.append_nil]
      · intro frame _ used
        rwa [same]
      · rw [same]
        exact vmmUnmap_spec sound.space (Set.mem_univ _)
  | cons frame rest =>
      obtain rfl : page = frame.address := isPage
      have inUse := frames.inUse frame List.mem_cons_self
      have inPool := frames.fromPool frame List.mem_cons_self
      have other := frames.other frame List.mem_cons_self
      obtain ⟨free, given⟩ := sound.give inPool inUse other
      refine ⟨Or.inr ⟨frame, rfl, inPool, inUse, other⟩, .of_unmapped free ?_ ?_⟩
      · intro used different wasUsed
        refine wasUsed.pmmFreePage free fun same => different ?_
        rw [Frame.address_inj.mp same]
        exact List.mem_singleton_self frame
      · exact vmmUnmap_spec given.space (Set.mem_univ _)

theorem DataFrames.nonzero (frames : DataFrames hhdmOffset pool kernel ctx records data machine)
    (nonnull : 0#64 ∉ pool) (membership : frame ∈ data) : frame.address ≠ 0#64 :=
  fun null => nonnull (null ▸ frames.fromPool frame membership)

theorem DataFrames.append {further : List Frame}
    (frames : DataFrames hhdmOffset pool kernel ctx records data machine)
    (others : DataFrames hhdmOffset pool kernel ctx records further machine)
    (disjoint : data.Disjoint further) :
    DataFrames hhdmOffset pool kernel ctx records (data ++ further) machine := by
  refine ⟨frames.distinct.append others.distinct disjoint, ?_, ?_, ?_⟩
  all_goals
    intro frame membership
    rcases List.mem_append.mp membership with here | there
  · exact frames.fromPool frame here
  · exact others.fromPool frame there
  · exact frames.inUse frame here
  · exact others.inUse frame there
  · exact frames.other frame here
  · exact others.other frame there

/-- What is left after the first frame has been given back. -/
theorem DataFrames.drop {virt : U64}
    (frames : DataFrames hhdmOffset pool kernel ctx records data before)
    (returned : PagesReturned hhdmOffset kernel virt 1 (data.take 1) before after) :
    DataFrames hhdmOffset pool kernel ctx records (data.drop 1) after where
  distinct := frames.distinct.sublist (List.drop_sublist 1 data)
  fromPool := fun frame membership => frames.fromPool frame (List.mem_of_mem_drop membership)
  inUse := by
    intro frame membership
    refine returned.inUse frame (fun again => ?_) (frames.inUse frame (List.mem_of_mem_drop membership))
    have distinct := frames.distinct
    rw [← List.take_append_drop 1 data] at distinct
    exact (List.nodup_append.mp distinct).2.2 frame again frame membership rfl
  other := fun frame membership => frames.other frame (List.mem_of_mem_drop membership)

/-- The loop gives back the frames that the pages have. -/
theorem SoundContext.returnPages {i : U64} (fuel : Nat)
    (sound : SoundContext hhdmOffset pool kernel ctx records machine) (listed : record ∈ records)
    (isFirst : Memory.load64 machine.memory (regionStart (record.pointer hhdmOffset)) + i * pageSize =
      first)
    (isCount : (Memory.load64 machine.memory (regionSize (record.pointer hhdmOffset))).toNat =
      i.toNat + count)
    (enough : count ≤ fuel) (room : first.toNat + count * 4096 ≤ 2 ^ 48)
    (backs : Backs hhdmOffset kernel first count data machine) (short : data.length ≤ count)
    (frames : DataFrames hhdmOffset pool kernel ctx records data machine) :
    TurnsGiveData hhdmOffset pool kernel ctx records (record.pointer hhdmOffset) fuel machine i ∧
      (vmaFreedPages hhdmOffset (ctx.pointer hhdmOffset) (record.pointer hhdmOffset) fuel machine
        i).filter (· ≠ 0#64) = data.map Frame.address ∧
      PagesReturned hhdmOffset kernel first count data machine
        (vmaFreePages hhdmOffset (ctx.pointer hhdmOffset) (record.pointer hhdmOffset) fuel machine
          i) := by
  induction count generalizing fuel machine i first data with
  | zero =>
      obtain rfl : data = [] := List.eq_nil_of_length_eq_zero (Nat.le_zero.mp short)
      have done : ¬i < Memory.load64 machine.memory (regionSize (record.pointer hhdmOffset)) := by
        intro below
        have number := BitVec.lt_def.mp below
        omega
      have returned : PagesReturned hhdmOffset kernel first 0 [] machine machine :=
        ⟨(List.append_nil _).symm, fun _ _ used => used, fun _ _ => rfl⟩
      cases fuel with
      | zero => exact ⟨trivial, rfl, returned⟩
      | succ fuel =>
          refine ⟨fun below => absurd below done, ?_, ?_⟩
          · rw [vmaFreedPages, if_neg done]
            rfl
          · rw [vmaFreePages, if_neg done]
            exact returned
  | succ count inductionHypothesis =>
      obtain ⟨fuel, rfl⟩ := Nat.exists_eq_add_of_le' (Nat.one_le_of_lt enough)
      have inside : i < Memory.load64 machine.memory (regionSize (record.pointer hhdmOffset)) := by
        rw [BitVec.lt_def]
        omega
      have isPage := backs 0 (Nat.succ_pos count)
      rw [BitVec.zero_mul, BitVec.add_zero] at isPage
      obtain ⟨gives, here⟩ := @SoundContext.returnPage _ _ _ _ _ _ _ sound _ first isPage frames
      rw [← isFirst, ← sound.pagemap] at gives
      obtain ⟨turn, same⟩ := sound.freeTurn gives
      have isTurn : vmaFreeTurn hhdmOffset (ctx.pointer hhdmOffset) (record.pointer hhdmOffset)
          machine i = vmmUnmap hhdmOffset (pmmFreePage machine (virtToPhys hhdmOffset machine.memory
            (kernel.pointer hhdmOffset) first)) (kernel.pointer hhdmOffset) first := by
        rw [vmaFreeTurn, ← isFirst, ← sound.pagemap]
      rw [← isTurn] at here
      have sameRecord := same record (List.mem_cons_of_mem _ listed)
      have next : first + pageSize = Memory.load64 machine.memory
          (regionStart (record.pointer hhdmOffset)) + (i + 1#64) * pageSize := by
        rw [← isFirst, BitVec.add_mul, BitVec.one_mul, BitVec.add_assoc]
      have step : (i + 1#64).toNat = i.toNat + 1 := by
        have bound := (Memory.load64 machine.memory (regionSize (record.pointer hhdmOffset))).isLt
        rw [BitVec.toNat_add, BitVec.toNat_ofNat]
        omega
      have behind : (first + pageSize).toNat = first.toNat + 4096 := by
        unfold pageSize
        rw [BitVec.toNat_add, BitVec.toNat_ofNat]
        omega
      have laterBacks : Backs hhdmOffset kernel (first + pageSize) count (data.drop 1)
          (vmaFreeTurn hhdmOffset (ctx.pointer hhdmOffset) (record.pointer hhdmOffset) machine i) := by
        intro j below
        have there := @pageNumber_add first (j + 1) (by omega)
        have isNext : first + pageSize + BitVec.ofNat 64 j * pageSize =
            first + BitVec.ofNat 64 (j + 1) * pageSize := by
          unfold pageSize
          rw [BitVec.ofNat_add]
          bv_omega
        rw [isNext, here.translation, backs (j + 1) (Nat.succ_lt_succ below), List.getElem?_drop,
          Nat.add_comm 1 j]
        intro other isZero samePage
        have atFirst := @pageNumber_add first other (by omega)
        rw [samePage] at there
        omega
      obtain ⟨laterGives, laterFreed, later⟩ := inductionHypothesis (i := i + 1#64) fuel turn
        ((congrArg (· + (i + 1#64) * pageSize) (Frame.load64_start_congr sameRecord)).trans next.symm)
        (by
          rw [regionSize, Frame.load64_congr sameRecord (by decide), step]
          unfold regionSize at isCount
          omega)
        (Nat.le_of_succ_le_succ enough) (by omega) laterBacks
        (by rw [List.length_drop]; omega) (frames.drop here)
      refine ⟨fun _ => ⟨gives, laterGives⟩, ?_, ?_⟩
      · rw [vmaFreedPages, if_pos inside, sound.pagemap, isFirst, isPage]
        cases data with
        | nil =>
            rw [List.filter_cons_of_neg (by simp), laterFreed]
            rfl
        | cons frame rest =>
            have nonzero := frames.nonzero sound.nonnull List.mem_cons_self
            rw [List.filter_cons_of_pos (by simpa using nonzero), laterFreed]
            rfl
      · rw [vmaFreePages, if_pos inside]
        have together := here.trans later
        rwa [List.take_append_drop] at together

end Nekonix
