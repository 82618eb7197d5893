import Mathlib.Data.BitVec
import Mathlib.Data.List.Nodup
import Mathlib.Data.List.Perm.Subperm
import Nekonix.Mm.Pmm

/-!
# What `pmm_init` leaves

On a memory map as the boot loader documents it, `pmm_init` fills the stack with
distinct frames.
-/

namespace Nekonix

/-- The stack as `pmm_init` leaves it: full, with distinct frames, none of them page 0. -/
structure PmmStack.Ready (stack : PmmStack) : Prop where
  full : stack.idx = stack.max
  nodup : stack.frames.Nodup
  nonnull : 0#64 ∉ stack.frames

/-- A usable entry covers whole pages, above page 0 and without wrapping. -/
structure LimineMemmapEntry.Whole (entry : LimineMemmapEntry) : Prop where
  base : 4096 ≤ entry.base.toNat
  aligned : 4096 ∣ entry.length.toNat
  fits : entry.base.toNat + entry.length.toNat < 2 ^ 64

/-- Two entries that are both usable do not overlap. -/
def LimineMemmapEntry.Apart (first second : LimineMemmapEntry) : Prop :=
  first.type = limineMemmapUsable → second.type = limineMemmapUsable →
    first.base.toNat + first.length.toNat ≤ second.base.toNat ∨
      second.base.toNat + second.length.toNat ≤ first.base.toNat

/-- What the boot protocol promises of a memory map. -/
structure MemmapDocumented (memmap : List LimineMemmapEntry) : Prop where
  whole : ∀ entry ∈ memmap, entry.type = limineMemmapUsable → entry.Whole
  apart : memmap.Pairwise LimineMemmapEntry.Apart

/-- The page addresses of an entry. -/
def LimineMemmapEntry.pages (entry : LimineMemmapEntry) : List U64 :=
  if entry.type = limineMemmapUsable then
    (List.range (entry.length.toNat / 4096)).map fun number =>
      entry.base + BitVec.ofNat 64 (number * 4096)
  else
    []

namespace LimineMemmapEntry

variable {entry carved : LimineMemmapEntry}

theorem mem_pages (whole : entry.type = limineMemmapUsable → entry.Whole) {page : U64}
    (membership : page ∈ entry.pages) :
    entry.type = limineMemmapUsable ∧ entry.base.toNat ≤ page.toNat ∧
      page.toNat < entry.base.toNat + entry.length.toNat := by
  unfold pages at membership
  split at membership
  next usable =>
    obtain ⟨number, inRange, rfl⟩ := List.mem_map.mp membership
    have bound := List.mem_range.mp inRange
    have fits := (whole usable).fits
    refine ⟨usable, ?_, ?_⟩ <;> bv_omega
  next => cases membership

theorem nodup_pages (entry : LimineMemmapEntry) : entry.pages.Nodup := by
  unfold pages
  split
  next usable =>
    refine List.Nodup.map_on ?_ List.nodup_range
    intro first firstIn second secondIn same
    have firstBound := List.mem_range.mp firstIn
    have secondBound := List.mem_range.mp secondIn
    have length := entry.length.isLt
    have offsets := (BitVec.add_right_inj _).mp same
    bv_omega
  next => exact List.nodup_nil

end LimineMemmapEntry

variable {memmap : List LimineMemmapEntry}

theorem MemmapDocumented.nodup (documented : MemmapDocumented memmap) :
    (memmap.flatMap LimineMemmapEntry.pages).Nodup := by
  rw [List.nodup_flatMap]
  refine ⟨fun entry _ => entry.nodup_pages, ?_⟩
  refine documented.apart.imp_of_mem ?_
  intro first second firstIn secondIn apart page inFirst inSecond
  have firstBounds := LimineMemmapEntry.mem_pages (documented.whole first firstIn) inFirst
  have secondBounds := LimineMemmapEntry.mem_pages (documented.whole second secondIn) inSecond
  have order := apart firstBounds.1 secondBounds.1
  omega

theorem MemmapDocumented.nonnull (documented : MemmapDocumented memmap) :
    0#64 ∉ memmap.flatMap LimineMemmapEntry.pages := by
  intro membership
  obtain ⟨entry, entryIn, inEntry⟩ := List.mem_flatMap.mp membership
  have bounds := LimineMemmapEntry.mem_pages (documented.whole entry entryIn) inEntry
  have base := (documented.whole entry entryIn bounds.1).base
  simp at bounds
  omega

theorem MemmapDocumented.count (documented : MemmapDocumented memmap) :
    (memmap.flatMap LimineMemmapEntry.pages).length < 2 ^ 64 := by
  have distinct : (0#64 :: memmap.flatMap LimineMemmapEntry.pages).Nodup :=
    List.nodup_cons.mpr ⟨documented.nonnull, documented.nodup⟩
  have numbers := distinct.map BitVec.toNat_injective
  have below : (0#64 :: memmap.flatMap LimineMemmapEntry.pages).map BitVec.toNat ⊆
      List.range (2 ^ 64) := by
    intro number membership
    obtain ⟨page, -, rfl⟩ := List.mem_map.mp membership
    exact List.mem_range.mpr page.isLt
  have bound := (List.subperm_of_subset numbers below).length_le
  rw [List.length_map, List.length_cons, List.length_range] at bound
  omega

/-! Carving the array out of the map -/

theorem alignUp_dvd (x : U64) : 4096 ∣ (alignUp x pageSize).toNat := by
  unfold alignUp
  generalize divRoundUp x pageSize = quotient
  rw [BitVec.toNat_mul]
  simp only [pageSize, BitVec.toNat_ofNat]
  omega

/-- `carved` is `entry`, or what is left of it above the array. -/
structure LimineMemmapEntry.Part (carved entry : LimineMemmapEntry) : Prop where
  type : carved.type = entry.type
  whole : entry.Whole → carved.Whole
  base : entry.Whole → entry.base.toNat ≤ carved.base.toNat
  fits : entry.Whole → carved.base.toNat + carved.length.toNat ≤
    entry.base.toNat + entry.length.toNat

theorem LimineMemmapEntry.Part.refl (entry : LimineMemmapEntry) : entry.Part entry where
  type := rfl
  whole := id
  base := fun _ => le_rfl
  fits := fun _ => le_rfl

theorem LimineMemmapEntry.Part.carve {entry : LimineMemmapEntry} {arraySize : U64}
    (aligned : 4096 ∣ arraySize.toNat) (room : arraySize ≤ entry.length) :
    LimineMemmapEntry.Part
      { entry with length := entry.length - arraySize, base := entry.base + arraySize } entry := by
  have length : (entry.length - arraySize).toNat = entry.length.toNat - arraySize.toNat :=
    BitVec.toNat_sub_of_le room
  have bound : arraySize.toNat ≤ entry.length.toNat := room
  have base : entry.Whole →
      (entry.base + arraySize).toNat = entry.base.toNat + arraySize.toNat := by
    intro whole
    have fits := whole.fits
    bv_omega
  refine ⟨rfl, ?_, ?_, ?_⟩
  · intro whole
    refine ⟨?_, ?_, ?_⟩
    · change 4096 ≤ (entry.base + arraySize).toNat
      rw [base whole]
      exact whole.base.trans (Nat.le_add_right _ _)
    · change 4096 ∣ (entry.length - arraySize).toNat
      rw [length]
      exact Nat.dvd_sub whole.aligned aligned
    · change (entry.base + arraySize).toNat + (entry.length - arraySize).toNat < 2 ^ 64
      rw [base whole, length, Nat.add_assoc, Nat.add_sub_cancel' bound]
      exact whole.fits
  · intro whole
    change _ ≤ (entry.base + arraySize).toNat
    rw [base whole]
    exact Nat.le_add_right _ _
  · intro whole
    change (entry.base + arraySize).toNat + (entry.length - arraySize).toNat ≤ _
    rw [base whole, length, Nat.add_assoc, Nat.add_sub_cancel' bound]

/-- Carving replaces entries by parts of them. -/
theorem carveStack_mem {arraySize : U64} (aligned : 4096 ∣ arraySize.toNat)
    {carved : LimineMemmapEntry} (membership : carved ∈ carveStack arraySize memmap) :
    ∃ entry ∈ memmap, carved.Part entry := by
  induction memmap with
  | nil => cases membership
  | cons entry rest inductionHypothesis =>
      unfold carveStack at membership
      split at membership
      next room =>
        rcases List.mem_cons.mp membership with rfl | inRest
        · exact ⟨entry, List.mem_cons_self, .carve aligned room.1⟩
        · exact ⟨carved, List.mem_cons_of_mem _ inRest, .refl _⟩
      next =>
        rcases List.mem_cons.mp membership with rfl | inRest
        · exact ⟨carved, List.mem_cons_self, .refl _⟩
        · obtain ⟨other, otherIn, part⟩ := inductionHypothesis inRest
          exact ⟨other, List.mem_cons_of_mem _ otherIn, part⟩

theorem LimineMemmapEntry.Apart.part {first second firstPart secondPart : LimineMemmapEntry}
    (apart : first.Apart second) (firstOf : firstPart.Part first)
    (secondOf : secondPart.Part second)
    (firstWhole : first.type = limineMemmapUsable → first.Whole)
    (secondWhole : second.type = limineMemmapUsable → second.Whole) :
    firstPart.Apart secondPart := by
  intro firstUsable secondUsable
  rw [firstOf.type] at firstUsable
  rw [secondOf.type] at secondUsable
  have firstWhole := firstWhole firstUsable
  have secondWhole := secondWhole secondUsable
  rcases apart firstUsable secondUsable with below | above
  · exact Or.inl ((firstOf.fits firstWhole).trans (below.trans (secondOf.base secondWhole)))
  · exact Or.inr ((secondOf.fits secondWhole).trans (above.trans (firstOf.base firstWhole)))

theorem MemmapDocumented.carve (documented : MemmapDocumented memmap) {arraySize : U64}
    (aligned : 4096 ∣ arraySize.toNat) : MemmapDocumented (carveStack arraySize memmap) := by
  constructor
  · intro carved membership usable
    obtain ⟨entry, entryIn, part⟩ := carveStack_mem aligned membership
    exact part.whole (documented.whole entry entryIn (part.type ▸ usable))
  · obtain ⟨whole, apart⟩ := documented
    induction memmap with
    | nil => exact List.Pairwise.nil
    | cons entry rest inductionHypothesis =>
        obtain ⟨headApart, restApart⟩ := List.pairwise_cons.mp apart
        have headWhole := whole entry List.mem_cons_self
        have restWhole : ∀ other ∈ rest, other.type = limineMemmapUsable → other.Whole :=
          fun other otherIn => whole other (List.mem_cons_of_mem _ otherIn)
        unfold carveStack
        split
        next room =>
          refine List.pairwise_cons.mpr ⟨?_, restApart⟩
          intro other otherIn
          exact (headApart other otherIn).part (.carve aligned room.1) (.refl _) headWhole
            (restWhole other otherIn)
        next =>
          refine List.pairwise_cons.mpr ⟨?_, inductionHypothesis restWhole restApart⟩
          intro carved carvedIn
          obtain ⟨other, otherIn, part⟩ := carveStack_mem aligned carvedIn
          exact (headApart other otherIn).part (.refl _) part headWhole (restWhole other otherIn)

/-! Filling the stack -/

theorem pushPages_frames (entry : LimineMemmapEntry) (fuel : Nat) (stack : PmmStack) (j : U64)
    {count : Nat} (remaining : j.toNat + count * 4096 = entry.length.toNat) (enough : count ≤ fuel)
    (room : stack.idx.toNat + count < 2 ^ 64) :
    (pushPages entry fuel stack j).frames = stack.frames ++
      (List.range count).map (fun number => entry.base + (j + BitVec.ofNat 64 (number * 4096))) := by
  induction fuel generalizing stack j count with
  | zero =>
      have none : count = 0 := Nat.le_zero.mp enough
      subst none
      simp [pushPages]
  | succ fuel inductionHypothesis =>
      cases count with
      | zero =>
          have finished : ¬j < entry.length := by bv_omega
          simp [pushPages, finished]
      | succ count =>
          have length := entry.length.isLt
          have further : j < entry.length := by bv_omega
          have pushed := stack.frames_push (entry.base + j) (by omega)
          have advance : (j + pageSize).toNat + count * 4096 = entry.length.toNat := by
            unfold pageSize
            bv_omega
          have index : (stack.idx + 1#64).toNat + count < 2 ^ 64 := by bv_omega
          rw [pushPages, if_pos further, inductionHypothesis _ _ advance (by omega) index, pushed,
            List.append_assoc]
          congr 1
          rw [List.range_succ_eq_map, List.map_cons, List.map_map]
          have atFirst : entry.base + (j + BitVec.ofNat 64 (0 * 4096)) = entry.base + j := by
            simp
          rw [atFirst, List.singleton_append]
          refine congrArg (List.cons _) (List.map_congr_left ?_)
          intro number _
          unfold pageSize
          simp only [Function.comp_apply]
          bv_omega

theorem pushEntries_frames
    (aligned : ∀ entry ∈ memmap, entry.type = limineMemmapUsable → 4096 ∣ entry.length.toNat)
    (stack : PmmStack)
    (room : stack.idx.toNat + (memmap.flatMap LimineMemmapEntry.pages).length < 2 ^ 64) :
    (pushEntries stack memmap).frames =
      stack.frames ++ memmap.flatMap LimineMemmapEntry.pages := by
  unfold pushEntries
  induction memmap generalizing stack with
  | nil => simp
  | cons entry rest inductionHypothesis =>
      have restAligned : ∀ other ∈ rest, other.type = limineMemmapUsable →
          4096 ∣ other.length.toNat :=
        fun other otherIn => aligned other (List.mem_cons_of_mem _ otherIn)
      rw [List.flatMap_cons, List.length_append] at room
      rw [List.foldl_cons, List.flatMap_cons, ← List.append_assoc]
      by_cases usable : entry.type = limineMemmapUsable
      · have aligned := aligned entry List.mem_cons_self usable
        have length := entry.length.isLt
        have listed : entry.pages.length = entry.length.toNat / 4096 := by
          simp [LimineMemmapEntry.pages, usable]
        have start : (0#64).toNat + entry.length.toNat / 4096 * 4096 = entry.length.toNat := by
          rw [Nat.div_mul_cancel aligned]
          exact Nat.zero_add _
        have pushed := pushPages_frames entry (2 ^ 52) stack 0#64 start (by omega)
          (by omega)
        have pages : (pushPages entry (2 ^ 52) stack 0#64).frames =
            stack.frames ++ entry.pages := by
          rw [pushed]
          simp [LimineMemmapEntry.pages, usable]
        have index := congrArg List.length pages
        rw [List.length_append, PmmStack.length_frames, PmmStack.length_frames] at index
        rw [if_pos usable, inductionHypothesis restAligned _ (by omega), pages]
      · have noPages : entry.pages = [] := by
          simp [LimineMemmapEntry.pages, usable]
        rw [noPages, List.length_nil, Nat.zero_add] at room
        rw [if_neg usable, noPages, List.append_nil, inductionHypothesis restAligned stack room]

theorem pmmInit_ready {memory : Memory} {pages : U64 → U64}
    (documented : MemmapDocumented memmap) : (pmmInit memory pages memmap).stack.Ready := by
  have carved := documented.carve (alignUp_dvd (countPages memmap * 8#64))
  have frames := pushEntries_frames (fun entry entryIn usable =>
    (carved.whole entry entryIn usable).aligned) { pages, idx := 0#64, max := 0#64 }
    (by simpa using carved.count)
  have listed : (pmmInit memory pages memmap).stack.frames =
      (carveStack (alignUp (countPages memmap * 8#64) pageSize) memmap).flatMap
        LimineMemmapEntry.pages := frames
  refine ⟨rfl, ?_, ?_⟩
  · rw [listed]
    exact carved.nodup
  · rw [listed]
    exact carved.nonnull

end Nekonix
