import Nekonix.Mm.Vma.Ownership

/-!
# A hole that is too small

The test of `vma_alloc` passes for every hole.  A region of two pages that goes into a hole of
one page overlaps the next region, is not known to it, and its `vma_free` finds a frame of it.
-/

namespace Nekonix

open FlatMemory LinkedList Transition

variable {hhdmOffset size flags returned newRegion : U64} {pool : List U64} {kernel ctx : Frame}
  {booted start before placed middle machine after next : Machine} {count : Nat}
  {calls : List VmaCall} {holdings front back : List Holding} {previous holding last : Holding}

/-! Calls on a cleared machine -/

/-- Calls have been made on a new context of a cleared machine. -/
structure CallsMade (count : Nat) (ctx : Frame) (start : Machine) (calls : List VmaCall)
    (holdings : List Holding) (machine : Machine) : Prop where
  created : vmaCreateContext 0#64 (Machine.cleared count) (Frame.pointer 0#64 1#40) =
    (ctx.pointer 0#64, start)
  run : Run (VmaStep 0#64 (Machine.cleared count).free 1#40 ctx) start calls machine
  owned : OwnFrames 0#64 (Machine.cleared count).free 1#40 ctx holdings machine

/-- Address 0 reads 0, as a start that comes after all regions. -/
structure ZeroPage (machine : Machine) : Prop where
  inUse : InUse 0#64 1#40 machine 0#40
  zero : Memory.load64 machine.memory 0#64 = 0#64

/-- A region of one page behind the last one. -/
structure PageBehind (last new : Holding) : Prop where
  start : new.start = last.finish
  size : new.size = 1#64
  data : new.data.length = 1

theorem PageBehind.stop {new : Holding} (behind : PageBehind last new)
    (bounded : last.stop < 2 ^ 64) : new.stop = last.stop + 4096 := by
  rw [Holding.stop, behind.start, Holding.finish_toNat bounded, behind.size]
  rfl

theorem AllocSucceeds.step {record : Frame} {begin : U64}
    (succeeds : AllocSucceeds hhdmOffset ctx size flags record begin before after)
    (nonnull : begin ≠ 0#64) :
    VmaStep hhdmOffset pool kernel ctx before (.alloc size flags (record.pointer hhdmOffset)) after := by
  obtain ⟨placed, isPlaced⟩ := succeeds.placed
  have step : VmaStep hhdmOffset pool kernel ctx before _ after :=
    .alloc succeeds.allowed isPlaced succeeds.allocated
  rwa [if_neg nonnull] at step

/-- What the test of `vma_alloc` compares, where there is a next region. -/
theorem HasRegions.fits_iff {later : Holding}
    (hasRegions : HasRegions hhdmOffset pool kernel ctx (front ++ holding :: later :: back) machine) :
    RegionFits machine.memory size (holding.region hhdmOffset) ↔
      size ≤ holding.finish - later.start := by
  have list := hasRegions.list
  unfold RegionList at list
  rw [List.map_append, List.map_cons, List.map_cons] at list
  have isNext : nextRegion machine.memory (holding.region hhdmOffset) = later.region hhdmOffset :=
    list.drop.2.2.1
  unfold RegionFits
  rw [hasRegions.regionEnd (by simp), isNext, hasRegions.start later (by simp)]

namespace CallsMade

theorem initial {root : Frame} (small : count < 2 ^ 39)
    (created : vmaCreateContext 0#64 (Machine.cleared count) (Frame.pointer 0#64 1#40) =
      (ctx.pointer 0#64, start))
    (isNew : NewContext 0#64 1#40 ctx root (Machine.cleared count) start) :
    CallsMade count ctx start [] [.ofRoot root] start ∧ ZeroPage start := by
  have same := isNew.same 0#40 (cleared_ready count small).pageZero
  refine ⟨⟨created, .nil, isNew.owned⟩, same.1, ?_⟩
  have zero : Memory.load64 (Machine.cleared count).memory 0#64 = 0#64 :=
    load_eq_of_bytes fun offset below => by rw [BitVec.extractLsb'_zero]; rfl
  exact (Frame.load64_start_congr same.2).trans zero

theorem nonzero (made : CallsMade count ctx start calls holdings machine)
    (listed : holding ∈ holdings) : holding.region 0#64 ≠ 0#64 :=
  made.owned.list.ne_stop _ (List.mem_map_of_mem listed)

theorem finish_ne_zero (made : CallsMade count ctx start calls holdings machine)
    (listed : holding ∈ holdings) : holding.finish ≠ 0#64 := by
  intro null
  have bounded := made.owned.packed.bounded holding listed
  have some := made.owned.packed.nonempty holding listed
  have number := Holding.finish_toNat bounded
  rw [null] at number
  unfold Holding.stop at number
  rw [BitVec.toNat_ofNat] at number
  omega

/-- Another call of one turn, where a region passes the test or there is only the root. -/
theorem alloc (made : CallsMade count ctx start calls holdings machine) (small : count < 2 ^ 39)
    (fits : holdings.tail = [] ∨
      ∃ holding ∈ holdings.tail, RegionFits machine.memory size (holding.region 0#64))
    (single : mappedPages size = 1#64) (supply : 5 ≤ machine.free.length) :
    ∃ front previous new back after, holdings = front ++ previous :: back ∧
      AllocSucceeds 0#64 ctx size heapFlags new.record new.start machine after ∧
      HoldingAdded 0#64 (Machine.cleared count).free 1#40 ctx size heapFlags front previous new back
        new.start machine after ∧
      Run (VmaStep 0#64 (Machine.cleared count).free 1#40 ctx) start
        (calls ++ [.alloc size heapFlags (new.region 0#64)]) after := by
  have sound := made.owned.sound
  have rooted : holdings ≠ [] := by
    rintro rfl
    obtain ⟨root, isRoot, -⟩ := made.owned.root
    cases isRoot
  have inside : EndsInList machine.memory (ctx.pointer 0#64) size := by
    intro regions list
    rw [list.unique made.owned.list, ← List.map_tail, List.map_eq_nil_iff]
    refine fits.imp_right fun ⟨holding, listed, passes⟩ => ?_
    exact ⟨_, List.mem_map_of_mem listed, passes⟩
  obtain ⟨_, _, record, _, data, begin, after, split, succeeds, region, isBegin⟩ :=
    @SoundContext.alloc_single _ size heapFlags _ _ _ _ _ sound (by simpa using rooted)
      (identity_nonnull_pool small) (by decide) inside ⟨by decide, by decide⟩ single supply
  obtain ⟨front, rest, rfl, rfl, isRest⟩ := List.map_eq_append_iff.mp split
  obtain ⟨previous, back, rfl, rfl, rfl⟩ := List.map_eq_cons_iff.mp isRest
  have listed : previous ∈ front ++ previous :: back := by simp
  obtain rfl : begin = previous.finish :=
    isBegin.trans (made.owned.toHasRegions.regionEnd listed)
  exact ⟨front, previous, ⟨record, previous.finish, size, data⟩, back, after, rfl, succeeds,
    made.owned.toHasRegions.added region,
    made.run.snoc (succeeds.step (made.finish_ne_zero listed))⟩

/-- The last region passes the test. -/
theorem last_fits (made : CallsMade count ctx start calls (front ++ [last]) machine)
    (zeroPage : ZeroPage machine) : RegionFits machine.memory 1#64 (last.region 0#64) := by
  have listed : last ∈ front ++ [last] := by simp
  have list := made.owned.list
  unfold RegionList at list
  rw [List.map_append, List.map_singleton] at list
  have far := made.finish_ne_zero listed
  unfold RegionFits
  rw [made.owned.toHasRegions.regionEnd listed, list.drop.2.2]
  unfold regionStart
  rw [zeroPage.zero, BitVec.sub_zero]
  bv_omega

/-- A page at the end of the list. -/
theorem append (made : CallsMade count ctx start calls (front ++ [last]) machine)
    (zeroPage : ZeroPage machine) (small : count < 2 ^ 39)
    (fail : ∀ holding ∈ front.tail, ¬RegionFits machine.memory 1#64 (holding.region 0#64))
    (supply : 5 ≤ machine.free.length) (bounded : last.stop + 4096 ≤ 2 ^ 48) :
    ∃ new after, PageBehind last new ∧
      VmaStep 0#64 (Machine.cleared count).free 1#40 ctx machine
        (.alloc 1#64 heapFlags (new.region 0#64)) after ∧
      CallsMade count ctx start (calls ++ [.alloc 1#64 heapFlags (new.region 0#64)])
        (front ++ [last, new]) after ∧
      ZeroPage after ∧ machine.free.length ≤ after.free.length + 5 := by
  have fits : (front ++ [last]).tail = [] ∨
      ∃ holding ∈ (front ++ [last]).tail, RegionFits machine.memory 1#64 (holding.region 0#64) := by
    cases front with
    | nil => exact Or.inl rfl
    | cons root front => exact Or.inr ⟨last, by simp, made.last_fits zeroPage⟩
  obtain ⟨others, previous, new, back, after, split, succeeds, added, run⟩ :=
    made.alloc small fits rfl supply
  have none : back.map Holding.record = [] := by
    apply added.region.behind.last
    rw [← List.map_cons, ← List.map_append, ← split]
    intro frame membership
    rw [← List.map_tail, ← List.map_dropLast] at membership
    obtain ⟨holding, listed, rfl⟩ := List.mem_map.mp membership
    apply fail
    cases front with
    | nil => cases listed
    | cons root front => simpa using listed
  rw [List.map_eq_nil_iff] at none
  subst none
  obtain ⟨rfl, isLast⟩ := List.append_inj' split rfl
  cases isLast
  have listed : last ∈ front ++ [last] := by simp
  have sound := made.owned.sound
  have isStop : new.start.toNat = last.stop := by
    rw [added.start, Holding.finish_toNat (made.owned.packed.bounded last listed)]
  have full := (added.region.returns (added.start ▸ made.finish_ne_zero listed)).2
  have pages : OwnPages 0#64 1#40 machine.memory new.start new.size new.data.length := by
    unfold OwnPages
    rw [added.size, isStop, full]
    exact ⟨bounded, fun j below behind => absurd below (Nat.not_lt_of_le behind)⟩
  have notZero : (0#40 : Frame) ≠ last.record := by
    intro same
    have nonzero := sound.nonzero (List.mem_cons_of_mem _ (List.mem_map_of_mem listed))
    exact nonzero (same ▸ by decide)
  have kept := Frame.load64_start_congr (added.region.same 0#40 notZero zeroPage.inUse)
  exact ⟨new, after, ⟨added.start, added.size, full⟩,
    succeeds.step (added.start ▸ made.finish_ne_zero listed),
    ⟨made.created, run, made.owned.append added (by decide) pages⟩,
    ⟨added.region.kept 0#40 zeroPage.inUse, kept.trans zeroPage.zero⟩, succeeds.supply⟩

/-- A region behind the root is given back. -/
theorem free
    (made : CallsMade count ctx start calls (front ++ previous :: holding :: back) machine)
    (nonnull : ctx.pointer 0#64 ≠ 0#64) :
    ∃ after, CallsMade count ctx start (calls ++ [.free holding.start (holding.region 0#64)])
        (front ++ previous :: back) after ∧ machine.free.length ≤ after.free.length := by
  have owned := made.owned
  rw [List.append_cons] at owned
  have isFound := owned.find
  obtain ⟨after, freed⟩ := vmaFree_exists nonnull isFound
  obtain ⟨left, free⟩ := made.owned.unlink isFound nonnull freed
  refine ⟨after, ⟨made.created, made.run.snoc ?_, left⟩, ?_⟩
  · exact .free made.owned.freeAllowed isFound freed
  · rw [free, List.length_append]
    exact Nat.le_add_right _ _

end CallsMade

def pageCalls (first second third : U64) : List VmaCall :=
  [.alloc 1#64 heapFlags first, .alloc 1#64 heapFlags second, .alloc 1#64 heapFlags third,
    .free (2#64 * pageSize) second]

/-- Three regions of one page, the second of them given back, and a region of two pages in the
hole it leaves. -/
structure HoleReused (ctx : Frame) (start before machine : Machine)
    (root : Frame) (first second third new : Holding) : Prop where
  nonnull : ctx.pointer 0#64 ≠ 0#64
  made : CallsMade 32 ctx start
    (pageCalls (first.region 0#64) (second.region 0#64) (third.region 0#64))
    [.ofRoot root, first, third] before
  nonzero : ∀ region ∈ [first, second, third, new], region.region 0#64 ≠ 0#64
  firstStart : first.start = pageSize
  thirdStart : third.start = 3#64 * pageSize
  thirdSize : third.size = 1#64
  thirdData : third.data.length = 1
  newStart : new.start = 2#64 * pageSize
  succeeds : AllocSucceeds 0#64 ctx 2#64 heapFlags new.record (2#64 * pageSize) before machine
  added : HoldingAdded 0#64 (Machine.cleared 32).free 1#40 ctx 2#64 heapFlags [.ofRoot root] first new
    [third] (2#64 * pageSize) before machine

theorem holeReused_exists : ∃ ctx start before machine root first second third new,
    HoleReused ctx start before machine root first second third new := by
  have small : 32 < 2 ^ 39 := by decide
  have ready := contextReady_cleared 32 small (by decide)
  obtain ⟨ctx, _, start, created, -⟩ :=
    @vmaCreateContext_spec 0#64 (Machine.cleared 32) (Frame.pointer 0#64 1#40) ready.usable ready.enough
  obtain ⟨root, isNew⟩ := ready.new created
  have nonnull := ready.nonnull (isNew.sound.fromPool ctx List.mem_cons_self)
  have supply := isNew.supply
  rw [Machine.length_free_cleared small] at supply
  obtain ⟨made, zeroPage⟩ := CallsMade.initial small created isNew
  have rootStop := Holding.stop_ofRoot root
  obtain ⟨first, _, isFirst, -, made, zeroPage, spentFirst⟩ :=
    @CallsMade.append _ _ _ _ _ [] _ made zeroPage small (fun _ none => nomatch none)
      (by omega) (by omega)
  have firstStop := isFirst.stop (by omega)
  obtain ⟨second, _, isSecond, -, made, zeroPage, spentSecond⟩ :=
    @CallsMade.append _ _ _ _ _ [_] _ made zeroPage small (fun _ none => nomatch none)
      (by omega) (by omega)
  have secondStop := isSecond.stop (by omega)
  have secondNonzero : second.region 0#64 ≠ 0#64 := made.nonzero (by simp)
  obtain ⟨third, _, isThird, -, made, -, spentThird⟩ :=
    @CallsMade.append _ _ _ _ _ [_, first] second made zeroPage small
      (by
        intro holding membership fits
        rw [List.mem_singleton.mp membership] at fits
        have far := (@HasRegions.fits_iff _ _ _ _ _ _ [_] [] _ _ made.owned.toHasRegions).mp fits
        rw [isSecond.start, BitVec.sub_self] at far
        exact absurd far (by decide)) (by omega) (by omega)
  have thirdStop := isThird.stop (by omega)
  obtain ⟨before, made, given⟩ := @CallsMade.free _ _ _ _ _ [_] [third] first second made nonnull
  have firstStart : first.start = pageSize := isFirst.start.trans (Holding.finish_ofRoot root)
  have firstFinish : first.finish = 2#64 * pageSize := by
    rw [Holding.finish, firstStart, isFirst.size]
    decide
  have secondStart : second.start = 2#64 * pageSize := isSecond.start.trans firstFinish
  have thirdStart : third.start = 3#64 * pageSize := by
    rw [isThird.start, Holding.finish, secondStart, isSecond.size]
    decide
  -- the hole between the first and the third region counts as larger than any request
  have fits : RegionFits before.memory 2#64 (first.region 0#64) := by
    refine (@HasRegions.fits_iff _ _ _ _ _ _ [_] [] _ _ made.owned.toHasRegions).mpr ?_
    rw [firstFinish, thirdStart]
    decide
  obtain ⟨front, previous, new, back, machine, split, succeeds, added, -⟩ :=
    made.alloc small (Or.inr ⟨first, by simp, fits⟩) rfl (by omega)
  have behind := firstFit_of_goesBehind added.region.behind
  obtain ⟨rfl, rfl, rfl⟩ : front = [.ofRoot root] ∧ first = previous ∧ back = [third] := by
    match front with
    | [] =>
        cases split
        rcases behind with ⟨-, noBack⟩ | ⟨noFront, -⟩
        · cases noBack
        · exact absurd rfl noFront
    | [_] =>
        cases split
        exact ⟨rfl, rfl, rfl⟩
    | [_, _] =>
        cases split
        rcases behind with ⟨noFront, -⟩ | ⟨-, -, fail⟩
        · cases noFront
        · exact absurd fits (fail _ List.mem_cons_self)
    | _ :: _ :: _ :: _ => simp at split
  have newStart : new.start = 2#64 * pageSize := added.start.trans firstFinish
  rw [newStart] at succeeds added
  rw [secondStart] at made
  have nonzero : ∀ region ∈ [first, second, third, new], region.region 0#64 ≠ 0#64 := by
    intro region membership
    simp only [List.mem_cons, List.not_mem_nil, or_false] at membership
    rcases membership with rfl | rfl | rfl | rfl
    · exact made.nonzero (by simp)
    · exact secondNonzero
    · exact made.nonzero (by simp)
    · exact succeeds.nonnull
  exact ⟨ctx, start, before, machine, root, first, second, third, new, nonnull, made, nonzero,
    firstStart, thirdStart, isThird.size, isThird.data, newStart, succeeds, added⟩

/-- The calls have been made, and each `vma_alloc` has returned a region. -/
structure HoleRun (ctx : Frame) (start before machine : Machine) (first second third new : U64) :
    Prop where
  created : vmaCreateContext 0#64 (Machine.cleared 32) (Frame.pointer 0#64 1#40) =
    (ctx.pointer 0#64, start)
  early : Run (VmaStep 0#64 (Machine.cleared 32).free 1#40 ctx) start (pageCalls first second third)
    before
  run : Run (VmaStep 0#64 (Machine.cleared 32).free 1#40 ctx) start
    (pageCalls first second third ++ [.alloc 2#64 heapFlags new]) machine
  returns : vmaAlloc 0#64 before (ctx.pointer 0#64) 2#64 heapFlags = some (2#64 * pageSize, machine)
  succeed : ∀ region ∈ [first, second, third, new], region ≠ 0#64

theorem HoleReused.isRun {root : Frame} {first second third new : Holding}
    (reused : HoleReused ctx start before machine root first second third new) :
    HoleRun ctx start before machine (first.region 0#64) (second.region 0#64) (third.region 0#64)
      (new.region 0#64) where
  created := reused.made.created
  early := reused.made.run
  run := reused.made.run.snoc (reused.succeeds.step (by decide))
  returns := reused.succeeds.allocated
  succeed := by
    intro region membership
    have nonzero := reused.nonzero
    simp only [List.mem_cons, List.not_mem_nil, or_false] at membership
    rcases membership with rfl | rfl | rfl | rfl <;> exact nonzero _ (by simp)

/-! The links -/

theorem ContextReady.packed (ready : ContextReady hhdmOffset kernel booted)
    (created : vmaCreateContext hhdmOffset booted (kernel.pointer hhdmOffset) =
      (ctx.pointer hhdmOffset, start))
    (run : Run (ApartStep hhdmOffset booted.free kernel ctx) start calls machine) :
    ∃ holdings, HasRegions hhdmOffset booted.free kernel ctx holdings machine ∧ Packed holdings := by
  obtain ⟨root, new⟩ := ready.new created
  have nonnull := ready.nonnull (new.sound.fromPool ctx List.mem_cons_self)
  refine run.invariant
    (fun machine => ∃ holdings, HasRegions hhdmOffset booted.free kernel ctx holdings machine ∧
      Packed holdings) ⟨_, new.hasRegions, packed_root root⟩ ?_
  rintro machine call next ⟨holdings, hasRegions, packed⟩ step
  exact hasRegions.apartStep packed nonnull step

/-- The region keeps the frames that its `vma_alloc` took until it is given back. -/
theorem ContextReady.heldFrames {earlier later : List VmaCall}
    (ready : ContextReady hhdmOffset kernel booted)
    (created : vmaCreateContext hhdmOffset booted (kernel.pointer hhdmOffset) =
      (ctx.pointer hhdmOffset, start))
    (run : Run (OwnedStep hhdmOffset booted.free kernel ctx) start earlier before)
    (allowed : AllocAllowed hhdmOffset ctx before size flags)
    (keeps : KeepsOwn hhdmOffset kernel before.memory (ctx.pointer hhdmOffset)
      (.alloc size flags newRegion))
    (isPlaced : vmaPlace hhdmOffset before (ctx.pointer hhdmOffset) size flags =
      some (newRegion, placed))
    (allocated : vmaAlloc hhdmOffset before (ctx.pointer hhdmOffset) size flags =
      some (returned, middle)) (success : returned ≠ 0#64)
    (further : Run (OwnedStep hhdmOffset booted.free kernel ctx) middle later machine)
    (live : ∀ ptr, VmaCall.free ptr newRegion ∉ later) :
    ctx.pointer hhdmOffset ≠ 0#64 ∧ ∃ front previous new back,
      OwnFrames hhdmOffset booted.free kernel ctx (front ++ previous :: new :: back) machine ∧
      newRegion = new.region hhdmOffset ∧ returned = new.start ∧
      vmaBackingFrames hhdmOffset before (ctx.pointer hhdmOffset) size flags =
        new.data.map Frame.address ∧
      (new.record :: new.data).Nodup ∧
      ∀ frame ∈ new.record :: new.data, frame.address ∈ before.free := by
  obtain ⟨root, isNew⟩ := ready.new created
  have nonnull := ready.nonnull (isNew.sound.fromPool ctx List.mem_cons_self)
  obtain ⟨holdings, owned, -⟩ := isNew.owned.run nonnull run
  have asked : KeepsOwn hhdmOffset kernel before.memory (ctx.pointer hhdmOffset)
      (.alloc size flags (if returned = 0#64 then 0#64 else newRegion)) := by
    rwa [if_neg success]
  rcases owned.alloc allowed isPlaced allocated asked with
    ⟨-, null, -⟩ | ⟨others, last, new, rfl, rfl, added, grown⟩
  · exact absurd null success
  obtain ⟨laterHoldings, ownedLater, kept⟩ := grown.run nonnull further
  have inTail : new ∈ (others ++ [last, new]).tail := by
    rw [List.append_cons, List.tail_append_of_ne_nil (by simp)]
    exact List.mem_append_right _ List.mem_cons_self
  obtain ⟨front, previous, back, rfl⟩ := exists_behind (kept new inTail live)
  have listed : last ∈ others ++ [last] := by simp
  have isStart : returned = new.start := by
    rw [(added.region.returns success).1, added.start]
    exact owned.toHasRegions.regionEnd listed
  exact ⟨nonnull, front, previous, new, back, ownedLater, rfl, isStart, added.region.isData,
    added.region.distinct, added.region.wasFree⟩

end Nekonix
