import Nekonix.Mm.Pmm.Placement

/-!
# `pmm_init` when no usable entry has room for its array

The loop that carves the array out can end without an entry.  `stack.pages` then
stays `NULL`; the last loop does not know, and stores the frames from address 0 on.
-/

namespace Nekonix

open FlatMemory

variable {memory : Memory} {memmap : List LimineMemmapEntry} {arraySize : U64}

/-- `pmm_init` on the zeroed `stack`: what it returns, and what it leaves. -/
def pmmInitResult (hhdmOffset : U64) (memory : Memory) (memmap : List LimineMemmapEntry) :
    Int × PmmPlaced :=
  (0, pmmInitPlaced hhdmOffset memory memmap)

/-- An initialization that refuses its memory map: it stores nothing, reports the error and
leaves the stack empty. -/
structure FailsCleanly (memory : Memory) (result : Int × PmmPlaced) : Prop where
  memory : result.2.memory = memory
  reported : result.1 ≠ 0
  idx : result.2.idx = 0#64
  max : result.2.max = 0#64

/-- An initialization that fills an array at `NULL` with all usable pages. -/
structure FillsFromNull (memory : Memory) (memmap : List LimineMemmapEntry)
    (result : Int × PmmPlaced) : Prop where
  unreported : result.1 = 0
  pages : result.2.pages = 0#64
  frames : result.2.frames = usablePages memmap
  nonempty : result.2.idx ≠ 0#64
  full : result.2.max = result.2.idx
  outside : ∀ address, ¬InRange 0#64 (8 * result.2.idx.toNat) address →
    result.2.memory address = memory address

/-- Without an entry for the array the memory map stays as it is. -/
theorem carveStack_none (notFound : carvedEntry arraySize memmap = none) :
    carveStack arraySize memmap = memmap := by
  unfold carvedEntry at notFound
  induction memmap with
  | nil => rfl
  | cons entry rest inductionHypothesis =>
      rw [List.find?_cons] at notFound
      unfold carveStack
      by_cases room : entry.length ≥ arraySize ∧ entry.type = limineMemmapUsable
      · simp [room] at notFound
      · simp only [decide_eq_false room] at notFound
        rw [if_neg room, inductionHypothesis notFound]

theorem carvedEntry_none
    (fragmented : ∀ entry ∈ memmap, entry.type = limineMemmapUsable → entry.length < arraySize) :
    carvedEntry arraySize memmap = none := by
  apply List.find?_eq_none.mpr
  intro entry entryIn
  rw [decide_eq_true_eq]
  rintro ⟨room, isUsable⟩
  exact BitVec.not_lt.mpr room (fragmented entry entryIn isUsable)

/-- A map that has a usable entry, but none with room for the array, has pages. -/
theorem AlignedMap.pages_of_fragmented (isAligned : AlignedMap memmap)
    (usable : ∃ entry ∈ memmap, entry.type = limineMemmapUsable)
    (fragmented : ∀ entry ∈ memmap, entry.type = limineMemmapUsable →
      entry.length < alignUp (Nekonix.countPages memmap * 8#64) pageSize) :
    0 < (usablePages memmap).length := by
  obtain ⟨entry, entryIn, isUsable⟩ := usable
  have short : entry.length.toNat < _ := fragmented entry entryIn isUsable
  rw [isAligned.arraySize] at short
  omega

/-! A map of single pages -/

/-- Usable entries of one page each, with one page between any two of them. -/
def singlePages (count : Nat) : List LimineMemmapEntry :=
  (List.range count).map fun number =>
    ⟨BitVec.ofNat 64 (0x2000 * number + 0x1000), 0x1000#64, limineMemmapUsable⟩

theorem singlePages_aligned {count : Nat} (small : count ≤ 2 ^ 50) :
    AlignedMap (singlePages count) := by
  refine ⟨?_, ?_, ?_⟩
  · intro entry entryIn _
    obtain ⟨number, -, rfl⟩ := List.mem_map.mp entryIn
    rw [BitVec.toNat_ofNat]
    omega
  · intro entry entryIn _
    obtain ⟨number, -, rfl⟩ := List.mem_map.mp entryIn
    exact dvd_refl 4096
  · refine List.pairwise_map.mpr (List.pairwise_lt_range.imp_of_mem ?_)
    intro first second firstIn secondIn before _ _ address inFirst inSecond
    have firstBound := List.mem_range.mp firstIn
    have secondBound := List.mem_range.mp secondIn
    unfold InRange at inFirst inSecond
    bv_omega

theorem usablePages_singlePages (count : Nat) :
    (usablePages (singlePages count)).length = count := by
  simp [usablePages, singlePages, LimineMemmapEntry.pages, List.length_flatMap, Function.comp_def]

/-- 513 single pages: the array needs two, which no entry has. -/
theorem singlePages_fragmented : ∀ entry ∈ singlePages 513, entry.type = limineMemmapUsable →
    entry.length < alignUp (countPages (singlePages 513) * 8#64) pageSize := by
  have size := (@singlePages_aligned 513 (by decide)).arraySize
  rw [usablePages_singlePages] at size
  intro entry entryIn _
  obtain ⟨number, -, rfl⟩ := List.mem_map.mp entryIn
  rw [BitVec.lt_def, size]
  change 4096 < (8 * 513 + 4095) / 4096 * 4096
  omega

theorem singlePages_usable :
    ∃ entry ∈ singlePages 513, entry.type = limineMemmapUsable :=
  ⟨_, List.mem_map.mpr ⟨0, List.mem_range.mpr (by decide), rfl⟩, rfl⟩

/-! The result -/

/-- `pmm_init` on a memory map without room for its array does not fail: it reports
success with all usable pages in an array at `NULL`. -/
theorem pmmInit_fragmented (hhdmOffset : U64) (memory : Memory) (isAligned : AlignedMap memmap)
    (usable : ∃ entry ∈ memmap, entry.type = limineMemmapUsable)
    (fragmented : ∀ entry ∈ memmap, entry.type = limineMemmapUsable →
      entry.length < alignUp (countPages memmap * 8#64) pageSize) :
    ¬FailsCleanly memory (pmmInitResult hhdmOffset memory memmap) ∧
      FillsFromNull memory memmap (pmmInitResult hhdmOffset memory memmap) := by
  have few := isAligned.count
  have some := isAligned.pages_of_fragmented usable fragmented
  have notFound := carvedEntry_none fragmented
  have uncarved := carveStack_none notFound
  have slots : 8 * (0 + (usablePages memmap).length) ≤ 2 ^ 64 := by omega
  have mirrors := (Mirrors.start 0#64 memory fun _ => 0#64).storeEntries isAligned.length slots
  have frames := pushEntries_frames isAligned.length ⟨fun _ => 0#64, 0#64, 0#64⟩
    (show 0 + (usablePages memmap).length < 2 ^ 64 by omega)
  have placed : pmmInitPlaced hhdmOffset memory memmap =
      { memory := (storeEntries 0#64 ⟨memory, 0#64⟩ memmap).memory
        pages := 0#64
        idx := (storeEntries 0#64 ⟨memory, 0#64⟩ memmap).idx
        max := (storeEntries 0#64 ⟨memory, 0#64⟩ memmap).idx } := by
    unfold pmmInitPlaced
    dsimp only
    rw [notFound, uncarved]
    rfl
  have fills : FillsFromNull memory memmap (pmmInitResult hhdmOffset memory memmap) := by
    unfold pmmInitResult
    rw [placed]
    refine
      { unreported := rfl
        pages := rfl
        frames := mirrors.words.trans frames
        nonempty := ?_
        full := rfl
        outside := ?_ }
    · have listed := congrArg List.length (mirrors.words.trans frames)
      rw [arrayWords, List.length_map, List.length_range] at listed
      intro empty
      change (storeEntries 0#64 ⟨memory, 0#64⟩ memmap).idx = 0#64 at empty
      rw [empty] at listed
      change 0 = (usablePages memmap).length at listed
      omega
    · rw [mirrors.idx]
      exact mirrors.outside
  exact ⟨fun failed => failed.reported fills.unreported, fills⟩

/-- 513 usable pages, none next to another: all of them are listed from address 0 on. -/
theorem pmmInit_fragmented_single_pages :
    ¬FailsCleanly (fun _ => 0#8)
        (pmmInitResult 0xffff800000000000#64 (fun _ => 0#8) (singlePages 513)) ∧
      FillsFromNull (fun _ => 0#8) (singlePages 513)
        (pmmInitResult 0xffff800000000000#64 (fun _ => 0#8) (singlePages 513)) :=
  pmmInit_fragmented 0xffff800000000000#64 (fun _ => 0#8) (singlePages_aligned (by decide))
    singlePages_usable singlePages_fragmented

/-- The map is as the boot protocol allows it and has no room for the array, and yet
`pmm_init` does not fail. -/
theorem pmmInit_accepts_single_pages :
    AlignedMap (singlePages 513) ∧
      (∃ entry ∈ singlePages 513, entry.type = limineMemmapUsable) ∧
      (∀ entry ∈ singlePages 513, entry.type = limineMemmapUsable →
        entry.length < alignUp (countPages (singlePages 513) * 8#64) pageSize) ∧
      ¬FailsCleanly (fun _ => 0#8)
        (pmmInitResult 0xffff800000000000#64 (fun _ => 0#8) (singlePages 513)) :=
  ⟨singlePages_aligned (by decide), singlePages_usable, singlePages_fragmented,
    fun failed => failed.reported rfl⟩

end Nekonix
