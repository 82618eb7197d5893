import Nekonix.Mm.Vma.Extents
import Nekonix.Mm.Vma.Links

/-!
# The frames of each region

A region is backed by the frames that its `vma_alloc` took for it, on its first pages.  While
its other pages have no frames, `vma_free` finds those and no others.
-/

namespace Nekonix

open LinkedList Transition

variable {hhdmOffset size flags returned newRegion ptr : U64} {pool : List U64} {kernel ctx : Frame}
  {booted start machine next before placed released after : Machine} {memory : Memory}
  {holdings front back : List Holding} {previous holding last new : Holding}

/-- The regions, apart from the root, have frames of their own, which no list or table has. -/
structure OwnFrames (hhdmOffset : U64) (pool : List U64) (kernel ctx : Frame)
    (holdings : List Holding) (machine : Machine) : Prop extends
    Linked hhdmOffset pool kernel ctx holdings machine where
  packed : Packed holdings
  bounded : ∀ holding ∈ holdings, holding.stop ≤ 2 ^ 48
  backs : ∀ holding ∈ holdings.tail,
    Backs hhdmOffset kernel holding.start holding.size.toNat holding.data machine
  short : ∀ holding ∈ holdings.tail, holding.data.length ≤ holding.size.toNat
  frames : ∀ holding ∈ holdings.tail,
    DataFrames hhdmOffset pool kernel ctx (holdings.map Holding.record) holding.data machine
  apart : holdings.tail.Pairwise fun holding later => holding.data.Disjoint later.data

/-- The pages of the new region that get no frame have none, and it has 48-bit addresses. -/
def OwnPages (hhdmOffset : U64) (kernel : Frame) (memory : Memory) (start size : U64)
    (mapped : Nat) : Prop :=
  start.toNat + size.toNat * 4096 ≤ 2 ^ 48 ∧
    ∀ j < size.toNat, mapped ≤ j →
      virtToPhys hhdmOffset memory (kernel.pointer hhdmOffset) (start + BitVec.ofNat 64 j * pageSize) =
        0#64

/-- `vma_alloc` adds a region at the end whose other pages have no frames, and the root is not
given back. -/
def KeepsOwn (hhdmOffset : U64) (kernel : Frame) (memory : Memory) (ctx : U64) (call : VmaCall) :
    Prop :=
  KeepsEnds memory ctx call ∧
    match call with
    | .alloc size _ record =>
        size ≠ 0#64 ∧ ∀ front last, RegionList memory ctx (front ++ [last]) →
          OwnPages hhdmOffset kernel memory (regionEnd memory last) size
            (if record = 0#64 then 0 else (mappedPages size).toNat)
    | .free _ _ => True

def OwnedStep (hhdmOffset : U64) (pool : List U64) (kernel ctx : Frame) (machine : Machine)
    (call : VmaCall) (next : Machine) : Prop :=
  VmaStep hhdmOffset pool kernel ctx machine call next ∧
    KeepsOwn hhdmOffset kernel machine.memory (ctx.pointer hhdmOffset) call

/-! Pages -/

theorem mappedPages_le_size (size : U64) : (mappedPages size).toNat ≤ size.toNat := by
  rw [mappedPages_toNat]
  omega

theorem Holding.pages_differ {holding later : Holding}
    (ordered : holding.stop ≤ later.start.toNat) (bounded : later.stop ≤ 2 ^ 48) {i j : Nat}
    (inside : i < holding.size.toNat) (laterInside : j < later.size.toNat) :
    pageNumber (holding.start + BitVec.ofNat 64 i * pageSize) ≠
      pageNumber (later.start + BitVec.ofNat 64 j * pageSize) := by
  intro same
  unfold Holding.stop at *
  have here := @pageNumber_add holding.start i (by omega)
  have there := @pageNumber_add later.start j (by omega)
  rw [same] at here
  omega

/-- The pages of two regions differ. -/
theorem OwnFrames.pages_differ (owned : OwnFrames hhdmOffset pool kernel ctx holdings machine)
    {front back : List Holding} (split : holdings = front ++ holding :: back) {other : Holding}
    (membership : other ∈ front ++ back) {i j : Nat} (inside : i < other.size.toNat)
    (here : j < holding.size.toNat) :
    pageNumber (other.start + BitVec.ofNat 64 i * pageSize) ≠
      pageNumber (holding.start + BitVec.ofNat 64 j * pageSize) := by
  have ordered := owned.packed.ordered
  rw [split, List.pairwise_append, List.pairwise_cons] at ordered
  obtain ⟨-, ⟨behind, -⟩, across⟩ := ordered
  rcases List.mem_append.mp membership with inFront | inBack
  · exact Holding.pages_differ (across other inFront holding List.mem_cons_self)
      (owned.bounded holding (by simp [split])) inside here
  · exact (Holding.pages_differ (behind other inBack) (owned.bounded other (by simp [split, inBack]))
      here inside).symm

/-- Translations of these pages are what they were. -/
theorem Backs.congr {first : U64} {count : Nat} {data : List Frame}
    (backs : Backs hhdmOffset kernel first count data before)
    (same : ∀ j < count,
      virtToPhys hhdmOffset after.memory (kernel.pointer hhdmOffset)
          (first + BitVec.ofNat 64 j * pageSize) =
        virtToPhys hhdmOffset before.memory (kernel.pointer hhdmOffset)
          (first + BitVec.ofNat 64 j * pageSize)) :
    Backs hhdmOffset kernel first count data after :=
  fun j below => (same j below).trans (backs j below)

/-! `vma_alloc` -/

namespace HoldingAdded

theorem translation
    (added : HoldingAdded hhdmOffset pool kernel ctx size flags front previous new back returned before
      after) (hasRegions : HasRegions hhdmOffset pool kernel ctx (front ++ previous :: back) before)
    (virt : U64) :
    virtToPhys hhdmOffset after.memory (kernel.pointer hhdmOffset) virt =
      ((backingFrame new.start new.data virt).map Frame.address).getD
        (virtToPhys hhdmOffset before.memory (kernel.pointer hhdmOffset) virt) := by
  have listed : previous ∈ front ++ previous :: back := by simp
  have isStart : new.start = Nekonix.regionEnd before.memory (previous.record.pointer hhdmOffset) :=
    added.start.trans (hasRegions.regionEnd listed).symm
  rw [added.region.translation, isStart]

/-- Pages outside the new region are what they were. -/
theorem translation_outside
    (added : HoldingAdded hhdmOffset pool kernel ctx size flags front previous new back returned before
      after) (hasRegions : HasRegions hhdmOffset pool kernel ctx (front ++ previous :: back) before)
    {virt : U64} (outside : ∀ j < new.data.length,
      pageNumber virt ≠ pageNumber (new.start + BitVec.ofNat 64 j * pageSize)) :
    virtToPhys hhdmOffset after.memory (kernel.pointer hhdmOffset) virt =
      virtToPhys hhdmOffset before.memory (kernel.pointer hhdmOffset) virt := by
  rw [added.translation hasRegions, backingFrame_outside outside]
  rfl

theorem short
    (added : HoldingAdded hhdmOffset pool kernel ctx size flags front previous new back returned before
      after) : new.data.length ≤ new.size.toNat := by
  rw [added.size]
  exact added.region.short.trans (mappedPages_le_size size)

theorem backs
    (added : HoldingAdded hhdmOffset pool kernel ctx size flags front previous new back returned before
      after) (hasRegions : HasRegions hhdmOffset pool kernel ctx (front ++ previous :: back) before)
    (pages : OwnPages hhdmOffset kernel before.memory new.start new.size new.data.length) :
    Backs hhdmOffset kernel new.start new.size.toNat new.data after := by
  have short := added.short
  obtain ⟨bounded, none⟩ := pages
  intro j below
  by_cases inside : j < new.data.length
  · have room : new.start.toNat + new.data.length * 4096 ≤ 2 ^ 48 :=
      (Nat.add_le_add_left (Nat.mul_le_mul_right 4096 short) _).trans bounded
    rw [added.translation hasRegions, backingFrame_inside room inside,
      List.getElem?_eq_getElem inside]
    rfl
  · rw [added.translation_outside hasRegions, none j below (Nat.le_of_not_lt inside),
      List.getElem?_eq_none (Nat.le_of_not_lt inside)]
    · rfl
    · intro i isMapped same
      have here := @pageNumber_add new.start j (by omega)
      have there := @pageNumber_add new.start i (by omega)
      rw [same] at here
      omega

theorem frames
    (added : HoldingAdded hhdmOffset pool kernel ctx size flags front previous new back returned before
      after) (sound : SoundContext hhdmOffset pool kernel ctx
      ((front ++ previous :: back).map Holding.record) before) :
    DataFrames hhdmOffset pool kernel ctx ((front ++ previous :: new :: back).map Holding.record)
      new.data after where
  distinct := (List.nodup_cons.mp added.region.distinct).2
  fromPool := fun frame membership =>
    sound.pooled _ (added.region.wasFree frame (List.mem_cons_of_mem _ membership))
  inUse := added.region.inUse
  other := by
    intro frame membership listed
    have wasFree := added.region.wasFree frame (List.mem_cons_of_mem _ membership)
    have cases : frame = new.record ∨
        frame ∈ ctx :: (front ++ previous :: back).map Holding.record := by
      simp only [List.map_append, List.map_cons, List.mem_append, List.mem_cons] at listed ⊢
      tauto
    rcases cases with rfl | old
    · exact (List.nodup_cons.mp added.region.distinct).1 membership
    · exact (sound.inUse frame old).notFree wasFree

/-- The frames of another region. -/
theorem otherFrames {data : List Frame}
    (added : HoldingAdded hhdmOffset pool kernel ctx size flags front previous new back returned before
      after)
    (frames : DataFrames hhdmOffset pool kernel ctx ((front ++ previous :: back).map Holding.record)
      data before) :
    DataFrames hhdmOffset pool kernel ctx ((front ++ previous :: new :: back).map Holding.record)
        data after ∧ data.Disjoint new.data := by
  refine ⟨⟨frames.distinct, frames.fromPool, fun frame membership =>
    added.region.kept frame (frames.inUse frame membership), ?_⟩, ?_⟩
  · intro frame membership listed
    have cases : frame = new.record ∨
        frame ∈ ctx :: (front ++ previous :: back).map Holding.record := by
      simp only [List.map_append, List.map_cons, List.mem_append, List.mem_cons] at listed ⊢
      tauto
    rcases cases with rfl | old
    · exact (frames.inUse _ membership).notFree (added.region.wasFree _ List.mem_cons_self)
    · exact frames.other frame membership old
  · intro frame membership again
    exact (frames.inUse frame membership).notFree
      (added.region.wasFree frame (List.mem_cons_of_mem _ again))

end HoldingAdded

/-- `vma_free` returns where its search does. -/
theorem vmaFree_exists {region : U64} (nonnull : ctx.pointer hhdmOffset ≠ 0#64)
    (isFound : vmaFind machine.memory ptr (2 ^ 64)
      (Memory.load64 machine.memory (contextRoot (ctx.pointer hhdmOffset))) = some region) :
    ∃ after, vmaFree hhdmOffset machine (ctx.pointer hhdmOffset) ptr = some after := by
  unfold vmaFree
  dsimp only
  rw [if_neg nonnull, isFound]
  exact ⟨_, rfl⟩

namespace OwnFrames

theorem keep (owned : OwnFrames hhdmOffset pool kernel ctx holdings before)
    (linked : Linked hhdmOffset pool kernel ctx holdings after)
    (kept : RegionsKept hhdmOffset pool kernel ctx (holdings.map Holding.record) before after) :
    OwnFrames hhdmOffset pool kernel ctx holdings after where
  toLinked := linked
  packed := owned.packed
  bounded := owned.bounded
  backs := fun holding membership =>
    (owned.backs holding membership).congr fun _ _ => kept.translation _
  short := owned.short
  frames := by
    intro holding membership
    have frames := owned.frames holding membership
    exact ⟨frames.distinct, frames.fromPool, fun frame inData =>
      kept.inUse frame (frames.inUse frame inData), frames.other⟩
  apart := owned.apart

/-- A region at the end of the list. -/
theorem append (owned : OwnFrames hhdmOffset pool kernel ctx (front ++ [last]) before)
    (added : HoldingAdded hhdmOffset pool kernel ctx size flags front last new [] returned before
      after) (nonempty : size ≠ 0#64)
    (pages : OwnPages hhdmOffset kernel before.memory new.start new.size new.data.length) :
    OwnFrames hhdmOffset pool kernel ctx (front ++ [last, new]) after := by
  have linked := owned.toLinked.append added
  have tail : (front ++ [last, new]).tail = (front ++ [last]).tail ++ [new] := by
    rw [List.append_cons, List.tail_append_of_ne_nil (by simp)]
  have some : 0 < new.size.toNat := by
    rw [added.size]
    exact Nat.pos_of_ne_zero fun zero => nonempty (BitVec.eq_of_toNat_eq zero)
  have bounded : new.stop ≤ 2 ^ 48 := pages.1
  have packed : Packed (front ++ [last, new]) :=
    owned.packed.insert added.start some (bounded.trans_lt (by decide)) fun _ none => nomatch none
  have ordered := packed.ordered
  rw [List.append_cons, List.pairwise_append] at ordered
  have before := fun holding membership => ordered.2.2 holding membership new List.mem_cons_self
  refine ⟨linked, packed, ?_, ?_, ?_, ?_, ?_⟩
  · intro holding membership
    rw [List.append_cons, List.mem_append, List.mem_singleton] at membership
    rcases membership with old | rfl
    · exact owned.bounded holding old
    · exact bounded
  · intro holding membership
    rw [tail, List.mem_append, List.mem_singleton] at membership
    rcases membership with old | rfl
    · refine (owned.backs holding old).congr fun j inside => ?_
      refine added.translation_outside owned.toHasRegions fun i isMapped => ?_
      exact Holding.pages_differ (before holding (List.mem_of_mem_tail old)) bounded inside
        (isMapped.trans_le added.short)
    · exact added.backs owned.toHasRegions pages
  · intro holding membership
    rw [tail, List.mem_append, List.mem_singleton] at membership
    rcases membership with old | rfl
    · exact owned.short holding old
    · exact added.short
  · intro holding membership
    rw [tail, List.mem_append, List.mem_singleton] at membership
    rcases membership with old | rfl
    · exact (added.otherFrames (owned.frames holding old)).1
    · exact added.frames owned.sound
  · rw [tail, List.pairwise_append]
    refine ⟨owned.apart, List.pairwise_singleton _ _, ?_⟩
    intro holding membership other isNew
    rw [List.mem_singleton.mp isNew]
    exact (added.otherFrames (owned.frames holding membership)).2

/-! `vma_free` -/

/-- A region begins where no other one does. -/
theorem find (owned : OwnFrames hhdmOffset pool kernel ctx (front ++ holding :: back) machine) :
    vmaFind machine.memory holding.start (2 ^ 64)
      (Memory.load64 machine.memory (contextRoot (ctx.pointer hhdmOffset))) =
      some (holding.region hhdmOffset) := by
  refine owned.toHasRegions.find fun earlier membership same => ?_
  have ordered := (List.pairwise_append.mp owned.packed.ordered).2.2 earlier membership holding
    List.mem_cons_self
  have some := owned.packed.nonempty earlier (List.mem_append_left _ membership)
  unfold Holding.stop at ordered
  rw [same] at ordered
  omega

/-- The loop of `vma_free` finds the frames of the region. -/
theorem returnPages
    (owned : OwnFrames hhdmOffset pool kernel ctx (front ++ previous :: holding :: back) machine) :
    TurnsGiveData hhdmOffset pool kernel ctx
        ((front ++ previous :: holding :: back).map Holding.record) (holding.region hhdmOffset) (2 ^ 64)
        machine 0#64 ∧
      (vmaFreedPages hhdmOffset (ctx.pointer hhdmOffset) (holding.region hhdmOffset) (2 ^ 64) machine
        0#64).filter (· ≠ 0#64) = holding.data.map Frame.address ∧
      PagesReturned hhdmOffset kernel holding.start holding.size.toNat holding.data machine
        (vmaFreePages hhdmOffset (ctx.pointer hhdmOffset) (holding.region hhdmOffset) (2 ^ 64) machine
          0#64) := by
  have listed : holding ∈ front ++ previous :: holding :: back := by simp
  have inTail : holding ∈ (front ++ previous :: holding :: back).tail := by
    cases front with
    | nil => exact List.mem_cons_self
    | cons root front => simp
  have isFirst : Memory.load64 machine.memory (regionStart (holding.region hhdmOffset)) +
      0#64 * pageSize = holding.start := by
    rw [BitVec.zero_mul, BitVec.add_zero, owned.start holding listed]
  have isCount : (Memory.load64 machine.memory (regionSize (holding.region hhdmOffset))).toNat =
      (0#64).toNat + holding.size.toNat := by
    rw [owned.size holding listed, BitVec.toNat_ofNat, Nat.zero_mod, Nat.zero_add]
  exact owned.sound.returnPages (2 ^ 64) (List.mem_map_of_mem listed) isFirst isCount
    holding.size.isLt.le (owned.bounded holding listed) (owned.backs holding inTail)
    (owned.short holding inTail) (owned.frames holding inTail)

/-- A region that owns its frames may be given back. -/
theorem freeAllowed
    (owned : OwnFrames hhdmOffset pool kernel ctx (front ++ previous :: holding :: back) machine) :
    FreeAllowed hhdmOffset pool kernel ctx machine holding.start := by
  obtain ⟨gives, -, -⟩ := owned.returnPages
  have sound := owned.sound
  have links := owned.links
  unfold BackLinked at links
  rw [List.map_append, List.map_cons, List.map_cons, List.isChain_append_cons_cons] at links
  rw [List.append_cons] at owned
  have isRecord := owned.find
  have split : (front ++ previous :: holding :: back).map Holding.record =
      (front ++ [previous]).map Holding.record ++ holding.record :: back.map Holding.record := by
    simp
  rw [split] at sound gives
  have distinct := (List.nodup_cons.mp sound.nodup).2
  rw [List.nodup_middle, List.nodup_cons, List.mem_append, not_or] at distinct
  intro others record rest list isFound
  rw [isFound] at isRecord
  obtain rfl : record = holding.record := Frame.pointer_inj.mp (Option.some.inj isRecord)
  have same := (sound.unique list).symm
  obtain ⟨rfl, -, rfl⟩ := (List.append_cons_inj_of_notMem distinct.1.1 distinct.1.2).mp same
  refine ⟨Or.inl ⟨previous.record, ?_, links.2.1⟩, gives⟩
  exact List.mem_map_of_mem (by simp)

/-- `vma_free` gives back the frames of the region and then the frame of its record. -/
theorem unlink
    (owned : OwnFrames hhdmOffset pool kernel ctx (front ++ previous :: holding :: back) before)
    (isFound : vmaFind before.memory ptr (2 ^ 64)
      (Memory.load64 before.memory (contextRoot (ctx.pointer hhdmOffset))) =
      some (holding.region hhdmOffset))
    (nonnull : ctx.pointer hhdmOffset ≠ 0#64)
    (freed : vmaFree hhdmOffset before (ctx.pointer hhdmOffset) ptr = some after) :
    OwnFrames hhdmOffset pool kernel ctx (front ++ previous :: back) after ∧
      after.free = before.free ++ (holding.data.map Frame.address ++ [holding.record.address]) := by
  obtain ⟨gives, -, pages⟩ := owned.returnPages
  obtain ⟨linked, record⟩ := owned.toLinked.unlink isFound nonnull gives freed
  generalize vmaFreePages hhdmOffset (ctx.pointer hhdmOffset) (holding.region hhdmOffset) (2 ^ 64) before
    0#64 = released at pages record
  have part : (front ++ previous :: back).Sublist (front ++ previous :: holding :: back) :=
    ((List.sublist_cons_self holding back).cons_cons previous).append_left front
  have tail : (front ++ previous :: holding :: back).tail =
      (front ++ [previous]).tail ++ holding :: back := by
    rw [List.append_cons, List.tail_append_of_ne_nil (by simp)]
  have fewerTail : (front ++ previous :: back).tail = (front ++ [previous]).tail ++ back := by
    rw [List.append_cons, List.tail_append_of_ne_nil (by simp)]
  have partTail : (front ++ previous :: back).tail.Sublist
      (front ++ previous :: holding :: back).tail := part.tail
  have apart : ∀ other ∈ (front ++ previous :: back).tail, other.data.Disjoint holding.data := by
    have apart := owned.apart
    rw [tail, List.pairwise_append, List.pairwise_cons] at apart
    intro other membership
    rw [fewerTail, List.mem_append] at membership
    rcases membership with inFront | inBack
    · exact apart.2.2 other inFront holding List.mem_cons_self
    · exact (apart.2.1.1 other inBack).symm
  refine ⟨⟨linked, owned.packed.part part, ?_, ?_, ?_, ?_, owned.apart.sublist partTail⟩, ?_⟩
  · exact fun other membership => owned.bounded other (part.subset membership)
  · intro other membership
    refine (owned.backs other (partTail.subset membership)).congr fun i inside => ?_
    rw [record.tables.virtToPhys, pages.translation]
    intro j here
    refine owned.pages_differ (List.append_cons front previous (holding :: back)) ?_ inside here
    rw [fewerTail, List.mem_append] at membership
    exact List.mem_append.mpr (membership.imp_left List.mem_of_mem_tail)
  · exact fun other membership => owned.short other (partTail.subset membership)
  · intro other membership
    have frames := owned.frames other (partTail.subset membership)
    have isListed : holding.record ∈ (front ++ previous :: holding :: back).map Holding.record :=
      List.mem_map_of_mem (by simp)
    refine ⟨frames.distinct, frames.fromPool, fun frame inData => ?_, fun frame inData listed => ?_⟩
    · refine record.inUse frame ?_ (pages.inUse frame (apart other membership inData)
        (frames.inUse frame inData))
      rintro rfl
      exact frames.other _ inData (List.mem_cons_of_mem _ isListed)
    · refine frames.other frame inData ?_
      exact ((part.map Holding.record).cons_cons ctx).subset listed
  · rw [record.free, pages.free, List.append_assoc]

/-! Over time -/

/-- `vma_alloc` adds a region at the end. -/
theorem alloc (owned : OwnFrames hhdmOffset pool kernel ctx holdings before)
    (allowed : AllocAllowed hhdmOffset ctx before size flags)
    (isPlaced : vmaPlace hhdmOffset before (ctx.pointer hhdmOffset) size flags =
      some (newRegion, placed))
    (allocated : vmaAlloc hhdmOffset before (ctx.pointer hhdmOffset) size flags =
      some (returned, after))
    (keeps : KeepsOwn hhdmOffset kernel before.memory (ctx.pointer hhdmOffset)
      (.alloc size flags (if returned = 0#64 then 0#64 else newRegion))) :
    newRegion = 0#64 ∧ returned = 0#64 ∧ OwnFrames hhdmOffset pool kernel ctx holdings after ∨
      ∃ front last new, holdings = front ++ [last] ∧ newRegion = new.region hhdmOffset ∧
        HoldingAdded hhdmOffset pool kernel ctx size flags front last new [] returned before after ∧
        OwnFrames hhdmOffset pool kernel ctx (front ++ [last, new]) after := by
  obtain ⟨ends, nonempty, pages⟩ := keeps
  rcases owned.toLinked.alloc allowed ends isPlaced allocated with
    ⟨null, failed, linked, kept⟩ | ⟨front, last, new, rfl, rfl, added, linked⟩
  · exact Or.inl ⟨null, failed, owned.keep linked kept⟩
  · refine Or.inr ⟨front, last, new, rfl, rfl, added, owned.append added nonempty ?_⟩
    have nonnull := linked.list.ne_stop (new.region hhdmOffset) (List.mem_map_of_mem (by simp))
    have list := owned.list
    rw [List.map_append, List.map_singleton] at list
    have listed : last ∈ front ++ [last] := by simp
    have own := pages _ _ list
    rw [owned.toHasRegions.regionEnd listed, ← added.start, ← added.size] at own
    have mapped : (if (if returned = 0#64 then 0#64 else new.region hhdmOffset) = 0#64 then 0
        else (mappedPages new.size).toNat) ≤ new.data.length := by
      by_cases failed : returned = 0#64
      · rw [if_pos failed, if_pos rfl]
        exact Nat.zero_le _
      · rw [if_neg failed, if_neg nonnull, added.size, (added.region.returns failed).2]
    exact ⟨own.1, fun j inside behind => own.2 j inside (mapped.trans behind)⟩

/-- A region keeps its frames until it is given back. -/
theorem step {call : VmaCall} (owned : OwnFrames hhdmOffset pool kernel ctx holdings machine)
    (nonnull : ctx.pointer hhdmOffset ≠ 0#64)
    (step : OwnedStep hhdmOffset pool kernel ctx machine call next) :
    ∃ holdings', OwnFrames hhdmOffset pool kernel ctx holdings' next ∧
      ∀ holding ∈ holdings.tail, (∀ ptr, call ≠ .free ptr (holding.region hhdmOffset)) →
        holding ∈ holdings'.tail := by
  obtain ⟨step, keeps⟩ := step
  cases step with
  | alloc allowed isPlaced allocated =>
      rcases owned.alloc allowed isPlaced allocated keeps with
        ⟨-, -, kept⟩ | ⟨front, last, new, rfl, -, -, grown⟩
      · exact ⟨holdings, kept, fun _ membership _ => membership⟩
      · refine ⟨_, grown, fun holding membership _ => ?_⟩
        rw [List.append_cons, List.tail_append_of_ne_nil (by simp)]
        exact List.mem_append_left _ membership
  | free allowed isFound freed =>
      rcases owned.toLinked.free nonnull allowed isFound keeps.1 freed with
        ⟨-, rfl⟩ | ⟨front, previous, holding, back, rfl, rfl, -⟩
      · exact ⟨holdings, owned, fun _ membership _ => membership⟩
      · refine ⟨_, (owned.unlink isFound nonnull freed).1, fun other membership notFreed => ?_⟩
        have different : other ≠ holding := by
          rintro rfl
          exact notFreed _ rfl
        rw [List.append_cons, List.tail_append_of_ne_nil (by simp)] at membership ⊢
        rw [List.mem_append, List.mem_cons] at membership
        rw [List.mem_append]
        exact membership.imp_right fun behind => behind.resolve_left different

theorem run {calls : List VmaCall} (owned : OwnFrames hhdmOffset pool kernel ctx holdings start)
    (nonnull : ctx.pointer hhdmOffset ≠ 0#64)
    (run : Run (OwnedStep hhdmOffset pool kernel ctx) start calls machine) :
    ∃ holdings', OwnFrames hhdmOffset pool kernel ctx holdings' machine ∧
      ∀ holding ∈ holdings.tail, (∀ ptr, VmaCall.free ptr (holding.region hhdmOffset) ∉ calls) →
        holding ∈ holdings'.tail := by
  induction run with
  | nil => exact ⟨holdings, owned, fun _ membership _ => membership⟩
  | snoc _ step inductionHypothesis =>
      obtain ⟨between, ownedBetween, keptBetween⟩ := inductionHypothesis
      obtain ⟨later, ownedLater, keptLater⟩ := ownedBetween.step nonnull step
      refine ⟨later, ownedLater, fun holding membership notFreed => ?_⟩
      refine keptLater holding (keptBetween holding membership fun ptr earlier => ?_) fun ptr last => ?_
      · exact notFreed ptr (List.mem_append_left _ earlier)
      · exact notFreed ptr (List.mem_append_right _ (List.mem_singleton.mpr last.symm))

end OwnFrames

theorem exists_behind (membership : holding ∈ holdings.tail) :
    ∃ front previous back, holdings = front ++ previous :: holding :: back := by
  cases holdings with
  | nil => cases membership
  | cons root rest =>
      obtain ⟨front, back, rfl⟩ := List.append_of_mem membership
      rcases List.eq_nil_or_concat' front with rfl | ⟨front, previous, rfl⟩
      · exact ⟨[], root, back, rfl⟩
      · exact ⟨root :: front, previous, back, by simp⟩

theorem NewContext.owned {root : Frame}
    (new : NewContext hhdmOffset kernel ctx root booted machine) :
    OwnFrames hhdmOffset booted.free kernel ctx [.ofRoot root] machine where
  toLinked := new.linked
  packed := packed_root root
  bounded := by
    intro holding membership
    rw [List.mem_singleton.mp membership]
    rw [Holding.stop_ofRoot]
    decide
  backs := fun _ none => nomatch none
  short := fun _ none => nomatch none
  frames := fun _ none => nomatch none
  apart := List.Pairwise.nil

end Nekonix
