import Nekonix.Mm.Pmm.Init

/-!
# The array of `pmm_init` in memory

`pmm_init` carves the array `stack.pages` out of a usable entry and stores the
frames that are left into it through the direct map.  Here the array lies in
memory; it holds the frames of the stack that `pmmInit` fills.
-/

namespace Nekonix

open FlatMemory

variable {hhdmOffset : U64} {memmap : List LimineMemmapEntry} {entry : LimineMemmapEntry}

/-! `pmm_init` with its array in memory -/

/-- The entry that the second loop of `pmm_init` stops at. -/
def carvedEntry (arraySize : U64) (memmap : List LimineMemmapEntry) : Option LimineMemmapEntry :=
  memmap.find? fun entry => entry.length ≥ arraySize ∧ entry.type = limineMemmapUsable

/-- The array while it is filled: the memory and `stack.idx`. -/
structure PmmArray where
  memory : Memory
  idx : U64

/-- `stack.pages[stack.idx++] = pageAddr;` -/
def PmmArray.store (pages : U64) (array : PmmArray) (pageAddr : U64) : PmmArray where
  memory := Memory.store64 array.memory (pages + array.idx * 8#64) pageAddr
  idx := array.idx + 1#64

/-- `for (; j < entry->length; j += PAGE_SIZE) stack.pages[stack.idx++] = entry->base + j;` -/
def storePages (pages : U64) (entry : LimineMemmapEntry) :
    (fuel : Nat) → (array : PmmArray) → (j : U64) → PmmArray
  | 0, array, _ => array
  | fuel + 1, array, j =>
      if j < entry.length then
        storePages pages entry fuel (array.store pages (entry.base + j)) (j + pageSize)
      else
        array

/-- The last loop of `pmm_init`. -/
def storeEntries (pages : U64) (array : PmmArray) (memmap : List LimineMemmapEntry) : PmmArray :=
  memmap.foldl
    (fun array entry =>
      if entry.type = limineMemmapUsable then storePages pages entry (2 ^ 52) array 0#64 else array)
    array

/-- The memory and `stack` after `pmm_init`; `pages` is the pointer. -/
structure PmmPlaced where
  memory : Memory
  pages : U64
  idx : U64
  max : U64

/-- `pmm_init` on the zeroed `stack`. -/
def pmmInitPlaced (hhdmOffset : U64) (memory : Memory) (memmap : List LimineMemmapEntry) :
    PmmPlaced :=
  let arraySize := alignUp (countPages memmap * 8#64) pageSize
  let pages := ((carvedEntry arraySize memmap).map fun entry =>
    higherHalf hhdmOffset entry.base).getD 0#64
  let array := storeEntries pages { memory, idx := 0#64 } (carveStack arraySize memmap)
  { memory := array.memory, pages, idx := array.idx, max := array.idx }

/-- `pages[0 .. idx)` -/
def arrayWords (memory : Memory) (pages idx : U64) : List U64 :=
  (List.range idx.toNat).map fun slot => Memory.load64 memory (pages + BitVec.ofNat 64 (8 * slot))

def PmmPlaced.frames (placed : PmmPlaced) : List U64 :=
  arrayWords placed.memory placed.pages placed.idx

/-! The array holds the stack -/

/-- The array at `pages` holds the frames of `stack`, and the rest of the memory is as
it was at the `start`. -/
structure Mirrors (pages : U64) (start : Memory) (array : PmmArray) (stack : PmmStack) : Prop where
  idx : array.idx = stack.idx
  words : arrayWords array.memory pages array.idx = stack.frames
  outside : ∀ address, ¬InRange pages (8 * stack.idx.toNat) address →
    array.memory address = start address

theorem arrayWords_store (memory : Memory) (pages idx value : U64)
    (room : 8 * (idx.toNat + 1) ≤ 2 ^ 64) :
    arrayWords (Memory.store64 memory (pages + idx * 8#64) value) pages (idx + 1#64) =
      arrayWords memory pages idx ++ [value] := by
  have count : (idx + 1#64).toNat = idx.toNat + 1 := by bv_omega
  have top : pages + BitVec.ofNat 64 (8 * idx.toNat) = pages + idx * 8#64 := by bv_omega
  have below : ∀ slot ∈ List.range idx.toNat,
      Memory.load64 (Memory.store64 memory (pages + idx * 8#64) value)
        (pages + BitVec.ofNat 64 (8 * slot)) =
      Memory.load64 memory (pages + BitVec.ofNat 64 (8 * slot)) := by
    intro slot membership
    have bound := List.mem_range.mp membership
    apply Memory.load64_store64_separate
    intro address inSlot inTop
    unfold InRange at inSlot inTop
    rw [← top] at inTop
    bv_omega
  rw [arrayWords, count, List.range_succ, List.map_append, List.map_congr_left below,
    List.map_singleton, top, Memory.load64_store64_same]
  rfl

theorem Mirrors.store {pages : U64} {start : Memory} {array : PmmArray} {stack : PmmStack}
    (mirrors : Mirrors pages start array stack) (pageAddr : U64)
    (room : 8 * (stack.idx.toNat + 1) ≤ 2 ^ 64) :
    Mirrors pages start (array.store pages pageAddr)
      { stack with
        pages := Function.update stack.pages stack.idx pageAddr
        idx := stack.idx + 1#64 } := by
  have idx := mirrors.idx
  refine ⟨?_, ?_, ?_⟩
  · exact congrArg (· + 1#64) idx
  · rw [stack.frames_push pageAddr (by omega), ← mirrors.words]
    exact arrayWords_store _ _ _ _ (by rw [idx]; exact room)
  · intro address outside
    have count : (stack.idx + 1#64).toNat = stack.idx.toNat + 1 := by bv_omega
    have offSlot : ¬InRange (pages + array.idx * 8#64) 8 address := by
      intro inSlot
      apply outside
      unfold InRange at *
      rw [idx] at inSlot
      dsimp only
      bv_omega
    have offEarlier : ¬InRange pages (8 * stack.idx.toNat) address := by
      intro inEarlier
      apply outside
      unfold InRange at *
      dsimp only
      omega
    rw [← mirrors.outside address offEarlier]
    exact store_outside offSlot

/-- Both loops over the pages of an entry take the same turns. -/
theorem Mirrors.storePages {pages : U64} {start : Memory} {array : PmmArray} {stack : PmmStack}
    (mirrors : Mirrors pages start array stack) (fuel : Nat) {j : U64} {count : Nat}
    (remaining : j.toNat + count * 4096 = entry.length.toNat)
    (room : 8 * (stack.idx.toNat + count) ≤ 2 ^ 64) :
    Mirrors pages start (Nekonix.storePages pages entry fuel array j)
      (pushPages entry fuel stack j) := by
  induction fuel generalizing array stack j count with
  | zero => exact mirrors
  | succ fuel inductionHypothesis =>
      unfold Nekonix.storePages pushPages
      by_cases further : j < entry.length
      · rw [if_pos further, if_pos further]
        obtain ⟨less, rfl⟩ : ∃ less, count = less + 1 := by
          apply Nat.exists_eq_succ_of_ne_zero
          rintro rfl
          bv_omega
        have length := entry.length.isLt
        have advance : (j + pageSize).toNat + less * 4096 = entry.length.toNat := by
          unfold pageSize
          bv_omega
        refine inductionHypothesis (mirrors.store _ (by omega)) advance ?_
        dsimp only
        bv_omega
      · rw [if_neg further, if_neg further]
        exact mirrors

/-- Both loops over the memory map do. -/
theorem Mirrors.storeEntries {pages : U64} {start : Memory} {array : PmmArray} {stack : PmmStack}
    (mirrors : Mirrors pages start array stack)
    (aligned : ∀ entry ∈ memmap, entry.type = limineMemmapUsable → 4096 ∣ entry.length.toNat)
    (room : 8 * (stack.idx.toNat + (memmap.flatMap LimineMemmapEntry.pages).length) ≤ 2 ^ 64) :
    Mirrors pages start (Nekonix.storeEntries pages array memmap) (pushEntries stack memmap) := by
  unfold Nekonix.storeEntries pushEntries
  induction memmap generalizing array stack with
  | nil => exact mirrors
  | cons entry rest inductionHypothesis =>
      have restAligned : ∀ other ∈ rest, other.type = limineMemmapUsable →
          4096 ∣ other.length.toNat :=
        fun other otherIn => aligned other (List.mem_cons_of_mem _ otherIn)
      rw [List.flatMap_cons, List.length_append] at room
      rw [List.foldl_cons, List.foldl_cons]
      by_cases usable : entry.type = limineMemmapUsable
      · rw [if_pos usable, if_pos usable]
        have isLength := aligned entry List.mem_cons_self usable
        have length := entry.length.isLt
        have listed : entry.pages.length = entry.length.toNat / 4096 := by
          simp [LimineMemmapEntry.pages, usable]
        have remaining : (0#64).toNat + entry.length.toNat / 4096 * 4096 = entry.length.toNat := by
          rw [Nat.div_mul_cancel isLength]
          exact Nat.zero_add _
        have pushed := pushPages_frames entry (2 ^ 52) stack 0#64 remaining (by omega) (by omega)
        have index := congrArg List.length pushed
        rw [List.length_append, PmmStack.length_frames, PmmStack.length_frames, List.length_map,
          List.length_range] at index
        refine inductionHypothesis (mirrors.storePages _ remaining (by omega)) restAligned ?_
        omega
      · have noPages : entry.pages = [] := by
          simp [LimineMemmapEntry.pages, usable]
        rw [if_neg usable, if_neg usable]
        rw [noPages, List.length_nil, Nat.zero_add] at room
        exact inductionHypothesis mirrors restAligned room

theorem Mirrors.start (pages : U64) (memory : Memory) (slots : U64 → U64) :
    Mirrors pages memory { memory, idx := 0#64 } { pages := slots, idx := 0#64, max := 0#64 } where
  idx := rfl
  words := rfl
  outside := fun _ _ => rfl

/-! A memory map as the boot protocol guarantees it -/

/-- The addresses of an entry. -/
def LimineMemmapEntry.Covers (entry : LimineMemmapEntry) (address : Nat) : Prop :=
  entry.base.toNat ≤ address ∧ address < entry.base.toNat + entry.length.toNat

/-- The usable entries are page-aligned, above address 0 and disjoint. -/
structure UsableMap (memmap : List LimineMemmapEntry) : Prop where
  base : ∀ entry ∈ memmap, entry.type = limineMemmapUsable → 4096 ∣ entry.base.toNat
  length : ∀ entry ∈ memmap, entry.type = limineMemmapUsable → 4096 ∣ entry.length.toNat
  positive : ∀ entry ∈ memmap, entry.type = limineMemmapUsable → 0 < entry.base.toNat
  fits : ∀ entry ∈ memmap, entry.type = limineMemmapUsable →
    entry.base.toNat + entry.length.toNat ≤ 2 ^ 64
  disjoint : memmap.Pairwise fun first second =>
    first.type = limineMemmapUsable → second.type = limineMemmapUsable →
      ∀ address, first.Covers address → ¬second.Covers address

/-- The page addresses of the usable entries. -/
def usablePages (memmap : List LimineMemmapEntry) : List U64 :=
  memmap.flatMap LimineMemmapEntry.pages

/-- The pages of an entry lie in it, at multiples of the page size. -/
theorem LimineMemmapEntry.covers_pages {page : U64}
    (base : entry.type = limineMemmapUsable → 4096 ∣ entry.base.toNat)
    (fits : entry.type = limineMemmapUsable → entry.base.toNat + entry.length.toNat ≤ 2 ^ 64)
    (membership : page ∈ entry.pages) :
    entry.type = limineMemmapUsable ∧ entry.Covers page.toNat ∧ 4096 ∣ page.toNat ∧
      page.toNat + 4096 ≤ entry.base.toNat + entry.length.toNat := by
  unfold pages at membership
  split at membership
  next usable =>
    obtain ⟨number, inRange, rfl⟩ := List.mem_map.mp membership
    have bound := List.mem_range.mp inRange
    have aligned := base usable
    have whole := fits usable
    have address : (entry.base + BitVec.ofNat 64 (number * 4096)).toNat =
        entry.base.toNat + number * 4096 := by
      bv_omega
    refine ⟨usable, ?_, ?_, ?_⟩
    · rw [address]
      exact ⟨Nat.le_add_right _ _, by omega⟩
    · rw [address]
      exact Nat.dvd_add aligned (Nat.dvd_mul_left _ _)
    · rw [address]
      omega
  next => cases membership

theorem divRoundUp_toNat {x : U64} (small : x.toNat + 4095 < 2 ^ 64) :
    (divRoundUp x pageSize).toNat = (x.toNat + 4095) / 4096 := by
  simp only [divRoundUp, pageSize, BitVec.toNat_udiv, BitVec.toNat_add, BitVec.toNat_sub,
    BitVec.toNat_ofNat, Nat.reducePow, Nat.reduceMod, Nat.reduceSub, Nat.reduceAdd]
  omega

/-- The first loop of `pmm_init`, from any count on. -/
theorem countPages_from
    (whole : ∀ entry ∈ memmap, entry.type = limineMemmapUsable →
      4096 ∣ entry.length.toNat ∧ entry.length.toNat + 4095 < 2 ^ 64)
    (freePages : U64) (room : freePages.toNat + (usablePages memmap).length < 2 ^ 64) :
    (memmap.foldl
      (fun freePages entry =>
        if entry.type = limineMemmapUsable then freePages + divRoundUp entry.length pageSize
        else freePages) freePages).toNat = freePages.toNat + (usablePages memmap).length := by
  induction memmap generalizing freePages with
  | nil => rfl
  | cons entry rest inductionHypothesis =>
      have restWhole : ∀ other ∈ rest, other.type = limineMemmapUsable →
          4096 ∣ other.length.toNat ∧ other.length.toNat + 4095 < 2 ^ 64 :=
        fun other otherIn => whole other (List.mem_cons_of_mem _ otherIn)
      rw [usablePages, List.flatMap_cons, List.length_append, ← usablePages] at room ⊢
      rw [List.foldl_cons]
      by_cases usable : entry.type = limineMemmapUsable
      · obtain ⟨aligned, small⟩ := whole entry List.mem_cons_self usable
        have listed : entry.pages.length = entry.length.toNat / 4096 := by
          simp [LimineMemmapEntry.pages, usable]
        have rounded := divRoundUp_toNat small
        have added : (freePages + divRoundUp entry.length pageSize).toNat =
            freePages.toNat + entry.pages.length := by
          rw [BitVec.toNat_add, rounded, listed]
          omega
        rw [if_pos usable, inductionHypothesis restWhole _ (by omega), added]
        omega
      · have noPages : entry.pages = [] := by
          simp [LimineMemmapEntry.pages, usable]
        rw [noPages, List.length_nil] at room ⊢
        rw [if_neg usable, inductionHypothesis restWhole _ (by omega)]
        omega

/-! The pages of an aligned map -/

/-- The usable entries are page-aligned and disjoint; any of them may wrap around. -/
structure AlignedMap (memmap : List LimineMemmapEntry) : Prop where
  base : ∀ entry ∈ memmap, entry.type = limineMemmapUsable → 4096 ∣ entry.base.toNat
  length : ∀ entry ∈ memmap, entry.type = limineMemmapUsable → 4096 ∣ entry.length.toNat
  disjoint : memmap.Pairwise fun first second =>
    first.type = limineMemmapUsable → second.type = limineMemmapUsable →
      Separate first.base first.length.toNat second.base second.length.toNat

namespace AlignedMap

theorem mem_pages (isAligned : AlignedMap memmap) (entryIn : entry ∈ memmap) {page : U64}
    (membership : page ∈ entry.pages) :
    entry.type = limineMemmapUsable ∧ InRange entry.base entry.length.toNat page ∧
      4096 ∣ page.toNat := by
  unfold LimineMemmapEntry.pages at membership
  split at membership
  next usable =>
    obtain ⟨number, inRange, rfl⟩ := List.mem_map.mp membership
    have bound := List.mem_range.mp inRange
    have small := entry.length.isLt
    have aligned := isAligned.base entry entryIn usable
    refine ⟨usable, inRange_offset _ (by omega) (by omega), ?_⟩
    rw [BitVec.toNat_add, BitVec.toNat_ofNat]
    omega
  next => cases membership

theorem nodup (isAligned : AlignedMap memmap) : (usablePages memmap).Nodup := by
  rw [usablePages, List.nodup_flatMap]
  refine ⟨fun entry _ => entry.nodup_pages, ?_⟩
  refine isAligned.disjoint.imp_of_mem ?_
  intro first second firstIn secondIn disjoint page inFirst inSecond
  obtain ⟨firstUsable, firstCovers, -⟩ := isAligned.mem_pages firstIn inFirst
  obtain ⟨secondUsable, secondCovers, -⟩ := isAligned.mem_pages secondIn inSecond
  exact disjoint firstUsable secondUsable _ firstCovers secondCovers

/-- There are at most as many as 64-bit page numbers. -/
theorem count (isAligned : AlignedMap memmap) : (usablePages memmap).length ≤ 2 ^ 52 := by
  have aligned : ∀ page ∈ usablePages memmap, 4096 ∣ page.toNat := by
    intro page membership
    obtain ⟨entry, entryIn, inEntry⟩ := List.mem_flatMap.mp membership
    exact (isAligned.mem_pages entryIn inEntry).2.2
  have numbers : ((usablePages memmap).map fun page => page.toNat / 4096).Nodup := by
    refine isAligned.nodup.map_on ?_
    intro first firstIn second secondIn same
    have firstAligned := aligned first firstIn
    have secondAligned := aligned second secondIn
    apply BitVec.eq_of_toNat_eq
    omega
  have below : ((usablePages memmap).map fun page => page.toNat / 4096) ⊆ List.range (2 ^ 52) := by
    intro number membership
    obtain ⟨page, -, rfl⟩ := List.mem_map.mp membership
    have bound := page.isLt
    exact List.mem_range.mpr (by omega)
  have bound := (List.subperm_of_subset numbers below).length_le
  rwa [List.length_map, List.length_range] at bound

/-- The first loop counts them. -/
theorem countPages (isAligned : AlignedMap memmap) :
    (Nekonix.countPages memmap).toNat = (usablePages memmap).length := by
  have few := isAligned.count
  have whole : ∀ entry ∈ memmap, entry.type = limineMemmapUsable →
      4096 ∣ entry.length.toNat ∧ entry.length.toNat + 4095 < 2 ^ 64 := by
    intro entry entryIn isUsable
    have aligned := isAligned.length entry entryIn isUsable
    have small := entry.length.isLt
    exact ⟨aligned, by omega⟩
  have counted := countPages_from whole 0#64 (by simp only [BitVec.toNat_ofNat]; omega)
  rwa [BitVec.toNat_zero, Nat.zero_add] at counted

/-- What `pmm_init` takes for the array: all words fit. -/
theorem arraySize (isAligned : AlignedMap memmap) :
    (alignUp (Nekonix.countPages memmap * 8#64) pageSize).toNat =
      (8 * (usablePages memmap).length + 4095) / 4096 * 4096 := by
  have few := isAligned.count
  have count := isAligned.countPages
  have words : (Nekonix.countPages memmap * 8#64).toNat = 8 * (usablePages memmap).length := by
    bv_omega
  rw [alignUp_toNat (by omega), words]

end AlignedMap

namespace UsableMap

theorem covers (usable : UsableMap memmap) (entryIn : entry ∈ memmap) {page : U64}
    (membership : page ∈ entry.pages) :
    entry.type = limineMemmapUsable ∧ entry.Covers page.toNat ∧ 4096 ∣ page.toNat ∧
      page.toNat + 4096 ≤ entry.base.toNat + entry.length.toNat :=
  LimineMemmapEntry.covers_pages (usable.base entry entryIn) (usable.fits entry entryIn) membership

/-- Without wrapping, the addresses of an entry are those in its range. -/
theorem aligned (usable : UsableMap memmap) : AlignedMap memmap := by
  refine ⟨usable.base, usable.length, usable.disjoint.imp_of_mem ?_⟩
  intro first second firstIn secondIn disjoint firstUsable secondUsable address inFirst inSecond
  have firstFits := usable.fits first firstIn firstUsable
  have secondFits := usable.fits second secondIn secondUsable
  refine disjoint firstUsable secondUsable address.toNat ?_ ?_
  · unfold InRange at inFirst
    unfold LimineMemmapEntry.Covers
    bv_omega
  · unfold InRange at inSecond
    unfold LimineMemmapEntry.Covers
    bv_omega

end UsableMap

/-! Carving -/

/-- What is left of an entry above the array. -/
def LimineMemmapEntry.above (entry : LimineMemmapEntry) (arraySize : U64) : LimineMemmapEntry :=
  { entry with length := entry.length - arraySize, base := entry.base + arraySize }

/-- The first usable entry that is long enough is carved, and no other. -/
theorem carveStack_eq {arraySize : U64} {carved : LimineMemmapEntry}
    (found : carvedEntry arraySize memmap = some carved) :
    ∃ before after, memmap = before ++ carved :: after ∧
      carveStack arraySize memmap = before ++ carved.above arraySize :: after ∧
      arraySize ≤ carved.length ∧ carved.type = limineMemmapUsable := by
  unfold carvedEntry at found
  induction memmap with
  | nil => cases found
  | cons entry rest inductionHypothesis =>
      rw [List.find?_cons] at found
      unfold carveStack
      by_cases room : entry.length ≥ arraySize ∧ entry.type = limineMemmapUsable
      · simp only [room, and_self, decide_true, Option.some.injEq] at found
        subst found
        rw [if_pos room]
        exact ⟨[], rest, rfl, rfl, room⟩
      · simp only [decide_eq_false room] at found
        obtain ⟨before, after, rfl, carving, fits⟩ := inductionHypothesis found
        rw [if_neg room, carving]
        exact ⟨entry :: before, after, rfl, rfl, fits⟩

/-- The pages of an entry are those of the array and those above it. -/
theorem LimineMemmapEntry.pages_above {arraySize : U64} (isUsable : entry.type = limineMemmapUsable)
    (aligned : 4096 ∣ arraySize.toNat) (room : arraySize ≤ entry.length) :
    entry.pages =
      (List.range (arraySize.toNat / 4096)).map
          (fun number => entry.base + BitVec.ofNat 64 (number * 4096)) ++
        (entry.above arraySize).pages := by
  have stillUsable : (entry.above arraySize).type = limineMemmapUsable := isUsable
  have bound : arraySize.toNat ≤ entry.length.toNat := room
  have length : (entry.length - arraySize).toNat = entry.length.toNat - arraySize.toNat :=
    BitVec.toNat_sub_of_le room
  have count : entry.length.toNat / 4096 = arraySize.toNat / 4096 +
      (entry.length - arraySize).toNat / 4096 := by
    rw [length]
    omega
  rw [pages, if_pos isUsable, pages, if_pos stillUsable, count, List.range_add, List.map_append,
    List.map_map]
  congr 1
  refine List.map_congr_left ?_
  intro number _
  have start : BitVec.ofNat 64 (arraySize.toNat / 4096 * 4096) = arraySize := by
    rw [Nat.div_mul_cancel aligned, BitVec.ofNat_toNat, BitVec.setWidth_eq]
  rw [Function.comp_apply, Nat.add_mul, BitVec.ofNat_add, start, ← BitVec.add_assoc]
  rfl

/-! The result -/

/-- The stack as `pmm_init` is meant to leave it: full, with exactly the usable pages
outside the first `arraySize` bytes of `carved`, where the array lies. -/
structure BuildsFreeSet (hhdmOffset : U64) (memory : Memory) (memmap : List LimineMemmapEntry)
    (carved : LimineMemmapEntry) (arraySize : U64) (placed : PmmPlaced) : Prop where
  full : placed.idx = placed.max
  nodup : placed.frames.Nodup
  frames : ∀ page, page ∈ placed.frames ↔
    page ∈ usablePages memmap ∧ ¬InRange carved.base arraySize.toNat page
  pages : placed.pages = higherHalf hhdmOffset carved.base
  slots : 8 * placed.idx.toNat ≤ arraySize.toNat
  outside : ∀ address, ¬InRange placed.pages arraySize.toNat address →
    placed.memory address = memory address
  apart : ∀ page ∈ placed.frames,
    Separate (higherHalf hhdmOffset page) 4096 placed.pages arraySize.toNat

section Carved

variable {arraySize : U64} {carved : LimineMemmapEntry} {before after : List LimineMemmapEntry}

/-- A page in the first bytes of an entry lies in that entry. -/
theorem covers_of_inRange (room : arraySize ≤ carved.length)
    (fits : carved.base.toNat + carved.length.toNat ≤ 2 ^ 64) {page : U64}
    (inside : InRange carved.base arraySize.toNat page) :
    carved.Covers page.toNat ∧ page.toNat < carved.base.toNat + arraySize.toNat := by
  have bound : arraySize.toNat ≤ carved.length.toNat := room
  unfold InRange at inside
  unfold LimineMemmapEntry.Covers
  bv_omega

/-- The pages in the first bytes of an entry. -/
theorem mem_first_pages (base : 4096 ∣ carved.base.toNat) (aligned : 4096 ∣ arraySize.toNat)
    (room : arraySize ≤ carved.length)
    (fits : carved.base.toNat + carved.length.toNat ≤ 2 ^ 64) {page : U64}
    (pageAligned : 4096 ∣ page.toNat) :
    page ∈ (List.range (arraySize.toNat / 4096)).map
        (fun number => carved.base + BitVec.ofNat 64 (number * 4096)) ↔
      InRange carved.base arraySize.toNat page := by
  have bound : arraySize.toNat ≤ carved.length.toNat := room
  constructor
  · intro membership
    obtain ⟨number, inRange, rfl⟩ := List.mem_map.mp membership
    have below := List.mem_range.mp inRange
    exact inRange_offset _ (by omega) (by omega)
  · intro inside
    obtain ⟨⟨above, -⟩, below⟩ := covers_of_inRange room fits inside
    refine List.mem_map.mpr ⟨(page.toNat - carved.base.toNat) / 4096, ?_, ?_⟩
    · rw [List.mem_range]
      omega
    · apply BitVec.eq_of_toNat_eq
      rw [BitVec.toNat_add, BitVec.toNat_ofNat]
      omega

/-- The usable pages that the array leaves. -/
theorem mem_carved_pages (usable : UsableMap (before ++ carved :: after))
    (isUsable : carved.type = limineMemmapUsable) (aligned : 4096 ∣ arraySize.toNat)
    (room : arraySize ≤ carved.length) :
    (usablePages (before ++ carved.above arraySize :: after)).Sublist
        (usablePages (before ++ carved :: after)) ∧
      ∀ page, page ∈ usablePages (before ++ carved.above arraySize :: after) ↔
        page ∈ usablePages (before ++ carved :: after) ∧
          ¬InRange carved.base arraySize.toNat page := by
  have carvedIn : carved ∈ before ++ carved :: after := by simp
  have base := usable.base carved carvedIn isUsable
  have fits := usable.fits carved carvedIn isUsable
  have nodup := usable.aligned.nodup
  have inFirst : ∀ page ∈ usablePages (before ++ carved :: after), page ∈
      (List.range (arraySize.toNat / 4096)).map
        (fun number => carved.base + BitVec.ofNat 64 (number * 4096)) ↔
      InRange carved.base arraySize.toNat page := by
    intro page membership
    obtain ⟨entry, entryIn, inEntry⟩ := List.mem_flatMap.mp membership
    exact mem_first_pages base aligned room fits (usable.covers entryIn inEntry).2.2.1
  simp only [usablePages, List.flatMap_append, List.flatMap_cons,
    LimineMemmapEntry.pages_above isUsable aligned room] at nodup inFirst ⊢
  generalize (List.range (arraySize.toNat / 4096)).map
    (fun number => carved.base + BitVec.ofNat 64 (number * 4096)) = first at *
  constructor
  · exact (List.Sublist.refl _).append ((List.sublist_append_right first _).append_right _)
  · intro page
    constructor
    · intro membership
      have inMap : page ∈ before.flatMap LimineMemmapEntry.pages ++
          (first ++ (carved.above arraySize).pages ++ after.flatMap LimineMemmapEntry.pages) := by
        simp only [List.mem_append] at membership ⊢
        tauto
      refine ⟨inMap, ?_⟩
      rw [← inFirst page inMap]
      intro isFirst
      obtain ⟨-, behind, apart⟩ := List.nodup_append.mp nodup
      obtain ⟨front, -, later⟩ := List.nodup_append.mp behind
      have disjoint := (List.nodup_append.mp front).2.2
      rcases List.mem_append.mp membership with earlier | rest
      · exact apart page earlier page
          (List.mem_append_left _ (List.mem_append_left _ isFirst)) rfl
      · rcases List.mem_append.mp rest with above | behindIt
        · exact disjoint page isFirst page above rfl
        · exact later page (List.mem_append_left _ isFirst) page behindIt rfl
    · rintro ⟨inMap, outside⟩
      rw [← inFirst page inMap] at outside
      simp only [List.mem_append] at inMap ⊢
      tauto

end Carved

/-- The array in memory holds the frames that `pmmInit` lists, all usable pages that it
leaves. -/
theorem pmmInitPlaced_mirrors (usable : UsableMap memmap) {carved : LimineMemmapEntry}
    (found : carvedEntry (alignUp (countPages memmap * 8#64) pageSize) memmap = some carved)
    (memory : Memory) (slots : U64 → U64) :
    Mirrors (higherHalf hhdmOffset carved.base) memory
        ⟨(pmmInitPlaced hhdmOffset memory memmap).memory,
          (pmmInitPlaced hhdmOffset memory memmap).idx⟩
        (pmmInit memory slots memmap).stack ∧
      (pmmInit memory slots memmap).stack.frames =
        usablePages (carveStack (alignUp (countPages memmap * 8#64) pageSize) memmap) := by
  have aligned := alignUp_dvd (countPages memmap * 8#64)
  unfold pmmInitPlaced pmmInit
  dsimp only
  generalize alignUp (countPages memmap * 8#64) pageSize = arraySize at *
  rw [found]
  obtain ⟨before, after, rfl, carving, room, isUsable⟩ := carveStack_eq found
  obtain ⟨sublist, -⟩ := mem_carved_pages usable isUsable aligned room
  have few := sublist.length_le.trans usable.aligned.count
  have leftAligned : ∀ entry ∈ before ++ carved.above arraySize :: after,
      entry.type = limineMemmapUsable → 4096 ∣ entry.length.toNat := by
    intro entry entryIn entryUsable
    rcases List.mem_append.mp entryIn with early | later
    · exact usable.length entry (List.mem_append_left _ early) entryUsable
    · rcases List.mem_cons.mp later with rfl | late
      · have whole := usable.length carved (by simp) isUsable
        change 4096 ∣ (carved.length - arraySize).toNat
        rw [BitVec.toNat_sub_of_le room]
        exact Nat.dvd_sub whole aligned
      · exact usable.length entry
          (List.mem_append_right _ (List.mem_cons_of_mem _ late)) entryUsable
  rw [carving]
  have mirrors := (Mirrors.start (higherHalf hhdmOffset carved.base) memory slots).storeEntries
    leftAligned (by
      change 8 * (0 + (usablePages _).length) ≤ 2 ^ 64
      omega)
  refine ⟨⟨mirrors.idx, mirrors.words, mirrors.outside⟩, ?_⟩
  have frames := pushEntries_frames leftAligned { pages := slots, idx := 0#64, max := 0#64 } (by
    change 0 + (usablePages _).length < 2 ^ 64
    omega)
  exact frames

/-- On a memory map as the boot protocol guarantees it, with a usable entry that has
room for the array, `pmm_init` builds exactly the free set. -/
theorem pmmInit_builds_free_set (hhdmOffset : U64) (memory : Memory) (usable : UsableMap memmap)
    (room : ∃ entry ∈ memmap, entry.type = limineMemmapUsable ∧
      (8 * (usablePages memmap).length + 4095) / 4096 * 4096 ≤ entry.length.toNat) :
    ∃ carved arraySize,
      arraySize = alignUp (countPages memmap * 8#64) pageSize ∧
      arraySize.toNat = (8 * (usablePages memmap).length + 4095) / 4096 * 4096 ∧
      carvedEntry arraySize memmap = some carved ∧ arraySize ≤ carved.length ∧
      BuildsFreeSet hhdmOffset memory memmap carved arraySize
        (pmmInitPlaced hhdmOffset memory memmap) := by
  have size := usable.aligned.arraySize
  have aligned := alignUp_dvd (countPages memmap * 8#64)
  obtain ⟨carved, found⟩ : ∃ carved,
      carvedEntry (alignUp (countPages memmap * 8#64) pageSize) memmap = some carved := by
    obtain ⟨entry, entryIn, isUsable, long⟩ := room
    rw [← Option.isSome_iff_exists, carvedEntry, List.find?_isSome]
    refine ⟨entry, entryIn, decide_eq_true ⟨?_, isUsable⟩⟩
    rw [← size] at long
    exact long
  obtain ⟨mirrors, frames⟩ :=
    @pmmInitPlaced_mirrors hhdmOffset _ usable _ found memory fun _ => 0#64
  have pages : (pmmInitPlaced hhdmOffset memory memmap).pages =
      higherHalf hhdmOffset carved.base := by
    unfold pmmInitPlaced
    dsimp only
    rw [found]
    rfl
  have isFrames : (pmmInitPlaced hhdmOffset memory memmap).frames =
      usablePages (carveStack (alignUp (countPages memmap * 8#64) pageSize) memmap) := by
    rw [PmmPlaced.frames, pages, ← frames, ← mirrors.words]
  have count : (pmmInitPlaced hhdmOffset memory memmap).idx.toNat =
      (pmmInitPlaced hhdmOffset memory memmap).frames.length := by
    rw [PmmPlaced.frames, arrayWords, List.length_map, List.length_range]
  refine ⟨carved, _, rfl, size, found, ?_⟩
  generalize alignUp (countPages memmap * 8#64) pageSize = arraySize at *
  obtain ⟨before, after, rfl, carving, fits, isUsable⟩ := carveStack_eq found
  obtain ⟨sublist, members⟩ := mem_carved_pages usable isUsable aligned fits
  rw [carving] at isFrames
  have slots : 8 * (pmmInitPlaced hhdmOffset memory (before ++ carved :: after)).idx.toNat ≤
      arraySize.toNat := by
    have fewer := sublist.length_le
    rw [count, isFrames, size]
    omega
  refine ⟨fits, ?_⟩
  refine
    { full := rfl
      nodup := isFrames ▸ usable.aligned.nodup.sublist sublist
      frames := fun page => isFrames ▸ members page
      pages := pages
      slots := slots
      outside := ?outside
      apart := ?apart }
  case outside =>
    intro address outside
    apply mirrors.outside
    intro inside
    apply outside
    have idx := congrArg BitVec.toNat mirrors.idx
    rw [pages]
    unfold InRange at *
    dsimp only at idx
    omega
  case apart =>
    intro page membership address inPage inArray
    rw [isFrames, members] at membership
    obtain ⟨inMap, outside⟩ := membership
    obtain ⟨entry, entryIn, inEntry⟩ := List.mem_flatMap.mp inMap
    obtain ⟨entryUsable, covers, pageAligned, inside⟩ := usable.covers entryIn inEntry
    have base := usable.base carved (by simp) isUsable
    have carvedFits := usable.fits carved (by simp) isUsable
    have bound : arraySize.toNat ≤ carved.length.toNat := fits
    rw [pages] at inArray
    apply outside
    -- the page and the array both start at multiples of the page size
    unfold InRange higherHalf at *
    rw [BitVec.add_comm, ← BitVec.sub_sub] at inPage inArray
    generalize address - hhdmOffset = physicalAddress at inPage inArray
    have atPage : physicalAddress.toNat = page.toNat + (physicalAddress - page).toNat := by
      bv_omega
    have atArray : physicalAddress.toNat =
        carved.base.toNat + (physicalAddress - carved.base).toNat := by
      bv_omega
    have distance : (page - carved.base).toNat = page.toNat - carved.base.toNat := by
      apply BitVec.toNat_sub_of_le
      change carved.base.toNat ≤ page.toNat
      omega
    omega

/-- Sixteen usable pages and a reserved entry: the array takes the first page. -/
theorem pmmInit_builds_free_set_sixteen : ∃ carved arraySize,
    carvedEntry arraySize [⟨0x0#64, 0x1000#64, 1#64⟩, ⟨0x100000#64, 0x10000#64, 0#64⟩] =
      some carved ∧ arraySize.toNat = 4096 ∧
    BuildsFreeSet 0xffff800000000000#64 (fun _ => 0#8)
      [⟨0x0#64, 0x1000#64, 1#64⟩, ⟨0x100000#64, 0x10000#64, 0#64⟩] carved arraySize
      (pmmInitPlaced 0xffff800000000000#64 (fun _ => 0#8)
        [⟨0x0#64, 0x1000#64, 1#64⟩, ⟨0x100000#64, 0x10000#64, 0#64⟩]) := by
  have usable : UsableMap [⟨0x0#64, 0x1000#64, 1#64⟩, ⟨0x100000#64, 0x10000#64, 0#64⟩] := by
    refine ⟨?_, ?_, ?_, ?_, ?_⟩
    · decide
    · decide
    · decide
    · decide
    · refine List.pairwise_pair.mpr ?_
      intro firstUsable
      exact absurd firstUsable (by decide)
  have pages : (usablePages
      [⟨0x0#64, 0x1000#64, 1#64⟩, ⟨0x100000#64, 0x10000#64, 0#64⟩]).length = 16 := by
    decide
  obtain ⟨carved, arraySize, -, size, found, -, builds⟩ :=
    pmmInit_builds_free_set 0xffff800000000000#64 (fun _ => 0#8) usable
      ⟨_, List.mem_cons_of_mem _ List.mem_cons_self, rfl, by rw [pages]; decide⟩
  rw [pages] at size
  exact ⟨carved, arraySize, found, size, builds⟩

end Nekonix
