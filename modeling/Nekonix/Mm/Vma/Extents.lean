import Nekonix.Mm.Vma.Returned

/-!
# Regions that do not overlap

The test of `vma_alloc` subtracts the start of the next region from the end of this one, in
unsigned words, so a hole passes whatever its size.  Regions stay apart while each region that
goes in front of another one finds room for all its pages.
-/

namespace Nekonix

open FlatMemory LinkedList Transition

variable {hhdmOffset size flags returned newRegion ptr : U64} {pool : List U64} {kernel ctx : Frame}
  {booted start machine next before placed after : Machine} {memory : Memory}
  {holdings front back : List Holding} {previous new : Holding}

/-! Extents -/

/-- The bytes from `start` to `start + size * PAGE_SIZE`. -/
def regionExtent (memory : Memory) (region : U64) : Set Nat :=
  {byte | (Memory.load64 memory (regionStart region)).toNat ≤ byte ∧
    byte < (Memory.load64 memory (regionStart region)).toNat +
      (Memory.load64 memory (regionSize region)).toNat * 4096}

/-- The regions lie one behind the other and share no byte. -/
def RegionsApart (memory : Memory) (regions : List U64) : Prop :=
  regions.Pairwise fun region later =>
    Memory.load64 memory (regionStart region) < Memory.load64 memory (regionStart later) ∧
      ∀ byte ∈ regionExtent memory region, byte ∉ regionExtent memory later

/-- The new region goes behind the only one, or behind the first one after the root that
passes the test. -/
def FirstFit (memory : Memory) (size : U64) (front : List U64) (previous : U64)
    (back : List U64) : Prop :=
  front = [] ∧ back = [] ∨
    front ≠ [] ∧ RegionFits memory size previous ∧
      ∀ earlier ∈ front.tail, ¬RegionFits memory size earlier

/-- Behind the region that the new one goes behind there are `size` pages, in front of the next
region if there is one. -/
def HasRoom (memory : Memory) (ctx size : U64) : Prop :=
  ∀ front previous back, RegionList memory ctx (front ++ previous :: back) →
    FirstFit memory size front previous back →
    (regionEnd memory previous).toNat + size.toNat * 4096 < 2 ^ 64 ∧
      ∀ next ∈ back.head?, (regionEnd memory previous).toNat + size.toNat * 4096 ≤
        (Memory.load64 memory (regionStart next)).toNat

/-- Regions that `vma_alloc` adds have pages, and room for them. -/
def KeepsApart (memory : Memory) (ctx : U64) : VmaCall → Prop
  | .alloc size _ _ => size ≠ 0#64 ∧ HasRoom memory ctx size
  | .free _ _ => True

def ApartStep (hhdmOffset : U64) (pool : List U64) (kernel ctx : Frame) (machine : Machine)
    (call : VmaCall) (next : Machine) : Prop :=
  VmaStep hhdmOffset pool kernel ctx machine call next ∧
    KeepsApart machine.memory (ctx.pointer hhdmOffset) call

namespace Holding

/-- The first byte behind the region. -/
def stop (holding : Holding) : Nat := holding.start.toNat + holding.size.toNat * 4096

theorem finish_toNat {holding : Holding} (below : holding.stop < 2 ^ 64) :
    holding.finish.toNat = holding.stop := by
  unfold finish stop pageSize at *
  rw [BitVec.toNat_add, BitVec.toNat_mul, BitVec.toNat_ofNat]
  omega

theorem stop_ofRoot (record : Frame) : (ofRoot record).stop = 4096 := by
  change (0#64 : U64).toNat + (1#64 : U64).toNat * 4096 = 4096
  decide

end Holding

/-- The regions have pages, none of them wraps, and each ends before the later ones begin. -/
structure Packed (holdings : List Holding) : Prop where
  nonempty : ∀ holding ∈ holdings, 0 < holding.size.toNat
  bounded : ∀ holding ∈ holdings, holding.stop < 2 ^ 64
  ordered : holdings.Pairwise fun holding later => holding.stop ≤ later.start.toNat

namespace Packed

theorem part {fewer : List Holding} (packed : Packed holdings) (part : fewer.Sublist holdings) :
    Packed fewer :=
  ⟨fun holding membership => packed.nonempty holding (part.subset membership),
    fun holding membership => packed.bounded holding (part.subset membership),
    packed.ordered.sublist part⟩

/-- A region in the hole behind `previous`. -/
theorem insert (packed : Packed (front ++ previous :: back)) (begins : new.start = previous.finish)
    (nonempty : 0 < new.size.toNat) (bounded : new.stop < 2 ^ 64)
    (room : ∀ next ∈ back.head?, new.stop ≤ next.start.toNat) :
    Packed (front ++ previous :: new :: back) := by
  have cases : ∀ holding ∈ front ++ previous :: new :: back,
      holding = new ∨ holding ∈ front ++ previous :: back := by
    intro holding membership
    simp only [List.mem_append, List.mem_cons] at membership ⊢
    tauto
  have start : new.start.toNat = previous.stop := by
    rw [begins, Holding.finish_toNat (packed.bounded previous (by simp))]
  obtain ⟨inFront, inBack, across⟩ := List.pairwise_append.mp packed.ordered
  obtain ⟨behindPrevious, inBack⟩ := List.pairwise_cons.mp inBack
  refine ⟨?_, ?_, ?_⟩
  · intro holding membership
    rcases cases holding membership with rfl | old
    · exact nonempty
    · exact packed.nonempty holding old
  · intro holding membership
    rcases cases holding membership with rfl | old
    · exact bounded
    · exact packed.bounded holding old
  · have behindNew : ∀ later ∈ back, new.stop ≤ later.start.toNat := by
      cases back with
      | nil => exact fun _ none => nomatch none
      | cons first rest =>
          have first := room first rfl
          intro later membership
          rcases List.mem_cons.mp membership with rfl | further
          · exact first
          · have ordered := (List.pairwise_cons.mp inBack).1 later further
            unfold Holding.stop at *
            omega
    refine List.pairwise_append.mpr ⟨inFront, ?_, ?_⟩
    · refine List.pairwise_cons.mpr ⟨?_, List.pairwise_cons.mpr ⟨behindNew, inBack⟩⟩
      intro later membership
      rcases List.mem_cons.mp membership with rfl | further
      · exact start.ge
      · exact behindPrevious later further
    · intro holding inFront later membership
      rcases List.mem_cons.mp membership with rfl | further
      · exact across holding inFront _ List.mem_cons_self
      · rcases List.mem_cons.mp further with rfl | further
        · have before := across holding inFront previous List.mem_cons_self
          unfold Holding.stop at *
          omega
        · exact across holding inFront later (List.mem_cons_of_mem _ further)

end Packed

/-! Regions of a context -/

theorem firstFit_of_goesBehind
    (behind : GoesBehind hhdmOffset memory size (front.map Holding.record) previous.record
      (back.map Holding.record)) :
    FirstFit memory size (front.map (Holding.region hhdmOffset)) (previous.region hhdmOffset)
      (back.map (Holding.region hhdmOffset)) := by
  rcases behind with ⟨noFront, noBack⟩ | ⟨more, fits, fail⟩
  · rw [List.map_eq_nil_iff] at noFront noBack
    subst noFront noBack
    exact Or.inl ⟨rfl, rfl⟩
  · refine Or.inr ⟨fun none => more ?_, fits, ?_⟩
    · rw [List.map_eq_nil_iff] at none ⊢
      exact none
    · intro earlier membership
      rw [← List.map_tail] at membership
      obtain ⟨holding, inTail, rfl⟩ := List.mem_map.mp membership
      apply fail
      rw [← List.map_tail]
      exact List.mem_map_of_mem inTail

theorem HasRegions.apart (hasRegions : HasRegions hhdmOffset pool kernel ctx holdings machine)
    (packed : Packed holdings) :
    RegionsApart machine.memory (holdings.map (Holding.region hhdmOffset)) := by
  unfold RegionsApart
  rw [List.pairwise_map]
  refine packed.ordered.imp_of_mem ?_
  intro holding later inList laterInList ordered
  have some := packed.nonempty holding inList
  unfold regionExtent
  rw [hasRegions.start holding inList, hasRegions.size holding inList,
    hasRegions.start later laterInList, hasRegions.size later laterInList]
  unfold Holding.stop at ordered
  refine ⟨BitVec.lt_def.mpr (by omega), ?_⟩
  rintro byte ⟨-, before⟩ ⟨behind, -⟩
  omega

/-- Behind the last region there is room, up to the end of the addresses. -/
theorem HasRegions.hasRoom {last : Holding}
    (hasRegions : HasRegions hhdmOffset pool kernel ctx (front ++ [last]) machine)
    (fail : ∀ regions, RegionList machine.memory (ctx.pointer hhdmOffset) regions →
      ∀ region ∈ regions.tail.dropLast, ¬RegionFits machine.memory size region)
    (bounded : last.stop + size.toNat * 4096 < 2 ^ 64) :
    HasRoom machine.memory (ctx.pointer hhdmOffset) size := by
  intro others previous rest list fit
  have none : rest = [] := by
    rcases fit with ⟨-, none⟩ | ⟨more, fits, -⟩
    · exact none
    · by_contra further
      exact fail _ list previous (mem_tail_dropLast more further) fits
  subst none
  have same := list.unique hasRegions.list
  rw [List.map_append, List.map_singleton] at same
  obtain ⟨-, isLast⟩ := List.append_inj' same rfl
  cases isLast
  have listed : last ∈ front ++ [last] := by simp
  rw [hasRegions.regionEnd listed, Holding.finish_toNat (by omega)]
  exact ⟨bounded, fun _ none => absurd none (Option.not_mem_none _)⟩

/-- A step that finds room keeps the regions apart. -/
theorem HasRegions.apartStep {call : VmaCall}
    (hasRegions : HasRegions hhdmOffset pool kernel ctx holdings machine) (packed : Packed holdings)
    (nonnull : ctx.pointer hhdmOffset ≠ 0#64)
    (step : ApartStep hhdmOffset pool kernel ctx machine call next) :
    ∃ holdings, HasRegions hhdmOffset pool kernel ctx holdings next ∧ Packed holdings := by
  obtain ⟨step, keeps⟩ := step
  cases step with
  | alloc allowed isPlaced allocated =>
      rcases hasRegions.alloc allowed isPlaced allocated with
        ⟨-, -, kept, -⟩ | ⟨front, previous, new, back, rfl, -, -, added⟩
      · exact ⟨holdings, kept, packed⟩
      · obtain ⟨nonempty, room⟩ := keeps
        have list := hasRegions.list
        rw [List.map_append, List.map_cons] at list
        obtain ⟨bounded, gap⟩ := room _ _ _ list (firstFit_of_goesBehind added.region.behind)
        have start : new.start.toNat = previous.stop := by
          rw [added.start, Holding.finish_toNat (packed.bounded previous (by simp))]
        have listed : previous ∈ front ++ previous :: back := by simp
        rw [hasRegions.regionEnd listed, ← added.start, ← added.size] at bounded gap
        refine ⟨_, added.hasRegions, packed.insert added.start ?_ bounded ?_⟩
        · rw [added.size]
          exact Nat.pos_of_ne_zero fun zero => nonempty (BitVec.eq_of_toNat_eq zero)
        · cases back with
          | nil => exact fun _ none => nomatch none
          | cons first rest =>
              intro next isFirst
              obtain rfl := Option.some.inj isFirst
              have ends := gap _ rfl
              rw [hasRegions.start first (by simp)] at ends
              exact ends
  | free allowed isFound freed =>
      obtain ⟨fewer, part, kept⟩ := hasRegions.free nonnull allowed isFound freed
      exact ⟨fewer, kept, packed.part part⟩

theorem packed_root (root : Frame) : Packed [.ofRoot root] := by
  refine ⟨?_, ?_, List.pairwise_singleton _ _⟩
  · intro holding membership
    rw [List.mem_singleton.mp membership]
    exact Nat.one_pos
  · intro holding membership
    rw [List.mem_singleton.mp membership]
    rw [Holding.stop_ofRoot]
    decide

end Nekonix
