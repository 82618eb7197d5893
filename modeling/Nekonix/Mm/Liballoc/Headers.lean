import Nekonix.Mm.Liballoc

/-!
# The headers of the heap

A header as one value, and what each way to link a minor in or to take one out does to the
headers it touches.  All other bytes keep their values, apart from the one in front of the
pointer that is given out.
-/

namespace Nekonix

open FlatMemory

/-- What the header of a minor says. -/
structure Minor where
  prev : U64
  next : U64
  block : U64
  magic : U32
  size : U32
  reqSize : U32

/-- What the header of a major says. -/
structure Major where
  prev : U64
  next : U64
  pages : U32
  size : U32
  usage : U32
  first : U64

def minorAt (memory : Memory) (min : U64) : Minor where
  prev := minorPrev.read memory min
  next := minorNext.read memory min
  block := minorBlock.read memory min
  magic := minorMagic.read memory min
  size := minorSize.read memory min
  reqSize := minorReqSize.read memory min

def majorAt (memory : Memory) (maj : U64) : Major where
  prev := majorPrev.read memory maj
  next := majorNext.read memory maj
  pages := majorPages.read memory maj
  size := majorSize.read memory maj
  usage := majorUsage.read memory maj
  first := majorFirst.read memory maj

variable {heap : Liballoc} {memory other : Memory} {maj min base address ptr : U64} {size : Nat}

/-! Fields of a heap -/

namespace Liballoc

@[simp]
theorem write_memory {extent : Nat} (heap : Liballoc) (field : Field extent size) (base : U64)
    (value : BitVec (8 * size)) :
    (heap.write field base value).memory = field.write heap.memory base value := rfl

section Unchanged

variable {extent : Nat} (heap : Liballoc) (field : Field extent size) (base : U64)
  (value : BitVec (8 * size))

@[simp] theorem write_locked : (heap.write field base value).locked = heap.locked := rfl
@[simp] theorem write_memRoot : (heap.write field base value).memRoot = heap.memRoot := rfl
@[simp] theorem write_bestBet : (heap.write field base value).bestBet = heap.bestBet := rfl
@[simp] theorem write_allocated : (heap.write field base value).allocated = heap.allocated := rfl
@[simp] theorem write_inuse : (heap.write field base value).inuse = heap.inuse := rfl
@[simp] theorem write_supply : (heap.write field base value).supply = heap.supply := rfl
@[simp] theorem write_pageCalls : (heap.write field base value).pageCalls = heap.pageCalls := rfl

@[simp]
theorem write_warningCount : (heap.write field base value).warningCount = heap.warningCount := rfl

@[simp]
theorem write_errorCount : (heap.write field base value).errorCount = heap.errorCount := rfl

@[simp]
theorem write_possibleOverruns :
    (heap.write field base value).possibleOverruns = heap.possibleOverruns := rfl

end Unchanged

theorem read_minorPrev : heap.read minorPrev min = (minorAt heap.memory min).prev := rfl
theorem read_minorNext : heap.read minorNext min = (minorAt heap.memory min).next := rfl
theorem read_minorSize : heap.read minorSize min = (minorAt heap.memory min).size := rfl
theorem read_majorPrev : heap.read majorPrev maj = (majorAt heap.memory maj).prev := rfl
theorem read_majorNext : heap.read majorNext maj = (majorAt heap.memory maj).next := rfl
theorem read_majorPages : heap.read majorPages maj = (majorAt heap.memory maj).pages := rfl
theorem read_majorSize : heap.read majorSize maj = (majorAt heap.memory maj).size := rfl
theorem read_majorUsage : heap.read majorUsage maj = (majorAt heap.memory maj).usage := rfl
theorem read_majorFirst : heap.read majorFirst maj = (majorAt heap.memory maj).first := rfl

end Liballoc

/-! One store -/

theorem minorAt_congr
    (agree : ∀ address, InRange min 40 address → other address = memory address) :
    minorAt other min = minorAt memory min := by
  simp only [minorAt, Field.read_congr _ (by decide : 40 ≤ 2 ^ 64) agree]

theorem majorAt_congr
    (agree : ∀ address, InRange maj 40 address → other address = memory address) :
    majorAt other maj = majorAt memory maj := by
  simp only [majorAt, Field.read_congr _ (by decide : 40 ≤ 2 ^ 64) agree]

@[simp]
theorem minorAt_write_separate {field : Field 40 size} {value : BitVec (8 * size)}
    (separate : Separate min 40 base 40) :
    minorAt (field.write memory base value) min = minorAt memory min :=
  minorAt_congr fun _ inside => Field.write_outside (by decide) (separate _ inside)

@[simp]
theorem majorAt_write_separate {field : Field 40 size} {value : BitVec (8 * size)}
    (separate : Separate maj 40 base 40) :
    majorAt (field.write memory base value) maj = majorAt memory maj :=
  majorAt_congr fun _ inside => Field.write_outside (by decide) (separate _ inside)

@[simp]
theorem minorAt_update {byte : U8} (outside : ¬InRange min 40 address) :
    minorAt (Function.update memory address byte) min = minorAt memory min :=
  minorAt_congr fun _ inside => Function.update_of_ne (inside.ne outside) _ _

@[simp]
theorem majorAt_update {byte : U8} (outside : ¬InRange maj 40 address) :
    majorAt (Function.update memory address byte) maj = majorAt memory maj :=
  majorAt_congr fun _ inside => Function.update_of_ne (inside.ne outside) _ _

section OneField

variable (memory : Memory) (min maj value : U64) (word : U32)

@[simp]
theorem minorAt_writePrev : minorAt (minorPrev.write memory min value) min =
    { minorAt memory min with prev := value } := by
  simp (disch := decide) only [minorAt, Field.read_write_same, Field.read_write_apart]

@[simp]
theorem minorAt_writeNext : minorAt (minorNext.write memory min value) min =
    { minorAt memory min with next := value } := by
  simp (disch := decide) only [minorAt, Field.read_write_same, Field.read_write_apart]

@[simp]
theorem minorAt_writeBlock : minorAt (minorBlock.write memory min value) min =
    { minorAt memory min with block := value } := by
  simp (disch := decide) only [minorAt, Field.read_write_same, Field.read_write_apart]

@[simp]
theorem minorAt_writeMagic : minorAt (minorMagic.write memory min word) min =
    { minorAt memory min with magic := word } := by
  simp (disch := decide) only [minorAt, Field.read_write_same, Field.read_write_apart]

@[simp]
theorem minorAt_writeSize : minorAt (minorSize.write memory min word) min =
    { minorAt memory min with size := word } := by
  simp (disch := decide) only [minorAt, Field.read_write_same, Field.read_write_apart]

@[simp]
theorem minorAt_writeReqSize : minorAt (minorReqSize.write memory min word) min =
    { minorAt memory min with reqSize := word } := by
  simp (disch := decide) only [minorAt, Field.read_write_same, Field.read_write_apart]

@[simp]
theorem majorAt_writePrev : majorAt (majorPrev.write memory maj value) maj =
    { majorAt memory maj with prev := value } := by
  simp (disch := decide) only [majorAt, Field.read_write_same, Field.read_write_apart]

@[simp]
theorem majorAt_writeNext : majorAt (majorNext.write memory maj value) maj =
    { majorAt memory maj with next := value } := by
  simp (disch := decide) only [majorAt, Field.read_write_same, Field.read_write_apart]

@[simp]
theorem majorAt_writePages : majorAt (majorPages.write memory maj word) maj =
    { majorAt memory maj with pages := word } := by
  simp (disch := decide) only [majorAt, Field.read_write_same, Field.read_write_apart]

@[simp]
theorem majorAt_writeSize : majorAt (majorSize.write memory maj word) maj =
    { majorAt memory maj with size := word } := by
  simp (disch := decide) only [majorAt, Field.read_write_same, Field.read_write_apart]

@[simp]
theorem majorAt_writeUsage : majorAt (majorUsage.write memory maj word) maj =
    { majorAt memory maj with usage := word } := by
  simp (disch := decide) only [majorAt, Field.read_write_same, Field.read_write_apart]

@[simp]
theorem majorAt_writeFirst : majorAt (majorFirst.write memory maj value) maj =
    { majorAt memory maj with first := value } := by
  simp (disch := decide) only [majorAt, Field.read_write_same, Field.read_write_apart]

end OneField

/-! The pointer that is given out -/

/-- How far behind its header the memory of a minor is given out from. -/
def alignDiff (min : U64) : U64 :=
  let low := (min + sizeofMinor + alignInfo) &&& (alignment - 1#64)
  if low ≠ 0#64 then alignment - low + alignInfo else alignInfo

/-- The pointer that is given out for a minor. -/
def userPtr (min : U64) : U64 := min + sizeofMinor + alignDiff min

theorem alignDiff_toNat (min : U64) :
    16 ≤ (alignDiff min).toNat ∧ (alignDiff min).toNat ≤ 31 ∧ (userPtr min).toNat % 16 = 0 := by
  have masked : ((min + sizeofMinor + alignInfo) &&& (alignment - 1#64)).toNat =
      (min + sizeofMinor + alignInfo).toNat % 16 := by
    rw [BitVec.toNat_and]
    exact Nat.and_two_pow_sub_one_eq_mod _ 4
  unfold userPtr alignDiff
  dsimp only
  generalize isLow : (min + sizeofMinor + alignInfo) &&& (alignment - 1#64) = low at *
  unfold sizeofMinor alignInfo alignment at *
  split_ifs with aligned
  · bv_omega
  · bv_omega

theorem alignPtr_eq (heap : Liballoc) (min : U64) :
    alignPtr heap (min + sizeofMinor) = (userPtr min,
      { heap with
        memory := Function.update heap.memory (userPtr min - alignInfo)
          ((alignDiff min).setWidth 8) }) := by
  unfold alignPtr userPtr alignDiff
  dsimp only
  generalize isLow : (min + sizeofMinor + alignInfo) &&& (alignment - 1#64) = low
  by_cases aligned : low = 0#64
  · subst aligned
    simp only [ne_eq, not_true_eq_false, if_false]
    rfl
  · have moved : min + sizeofMinor + alignInfo + (alignment - low) =
        min + sizeofMinor + (alignment - low + alignInfo) := by
      rw [BitVec.add_assoc, BitVec.add_comm alignInfo]
    simp only [ne_eq, aligned, not_false_eq_true, if_true, moved]

theorem unalignPtr_userPtr
    (stored : memory (userPtr min - alignInfo) = (alignDiff min).setWidth 8) :
    unalignPtr memory (userPtr min) = min + sizeofMinor := by
  obtain ⟨low, high, -⟩ := alignDiff_toNat min
  have read : ((alignDiff min).setWidth 8).signExtend 64 = alignDiff min := by
    have small : ((alignDiff min).setWidth 8).msb = false := by
      rw [BitVec.msb_eq_decide, BitVec.toNat_setWidth]
      exact decide_eq_false (by omega)
    rw [BitVec.signExtend_eq_setWidth_of_msb_false small]
    apply BitVec.eq_of_toNat_eq
    rw [BitVec.toNat_setWidth, BitVec.toNat_setWidth]
    omega
  have below : alignDiff min < alignment + alignInfo := by
    rw [BitVec.lt_def]
    exact Nat.lt_of_le_of_lt high (by decide)
  unfold unalignPtr
  dsimp only
  rw [stored, read, if_pos below]
  exact BitVec.add_sub_cancel _ _

theorem diff_sub (min : U64) :
    (userPtr min - alignInfo - min).toNat = (alignDiff min).toNat + 24 := by
  obtain ⟨low, high, -⟩ := alignDiff_toNat min
  have position : userPtr min - alignInfo - min = alignDiff min + 24#64 := by
    unfold userPtr sizeofMinor alignInfo
    generalize alignDiff min = diff
    bv_omega
  rw [position]
  bv_omega

/-- The distance is kept between the header and the memory that is given out. -/
theorem diff_inRange (min : U64) : InRange min 56 (userPtr min - alignInfo) := by
  obtain ⟨low, high, -⟩ := alignDiff_toNat min
  rw [InRange, diff_sub]
  omega

theorem diff_outside (min : U64) : ¬InRange min 40 (userPtr min - alignInfo) := by
  obtain ⟨low, high, -⟩ := alignDiff_toNat min
  rw [InRange, diff_sub]
  omega

/-! Linking a minor in -/

variable {left right new bytes reqSize : U64}

/-- The headers that linking in a minor concerns share no byte; a neighbour is NULL where the
minor is the first or the last one. -/
structure RoomFor (maj left right new : U64) : Prop where
  major : Separate new 56 maj 40
  before : left ≠ 0#64 → Separate new 56 left 40 ∧ Separate left 40 maj 40
  behind : right ≠ 0#64 → Separate new 56 right 40 ∧ Separate right 40 maj 40
  across : left ≠ 0#64 → right ≠ 0#64 → Separate left 40 right 40

/-- The header of the new minor is written and its neighbours lead to it. -/
structure Wired (memory other : Memory) (maj left right new bytes reqSize : U64) : Prop where
  atNew : minorAt other new =
    ⟨left, right, maj, liballocMagic, bytes.setWidth 32, reqSize.setWidth 32⟩
  atMajor : majorAt other maj =
    { majorAt memory maj with first := if left = 0#64 then new else (majorAt memory maj).first }
  atLeft : left ≠ 0#64 → minorAt other left = { minorAt memory left with next := new }
  atRight : right ≠ 0#64 → minorAt other right = { minorAt memory right with prev := new }
  outside : ∀ address, ¬InRange maj 40 address → ¬InRange new 40 address →
    (left ≠ 0#64 → ¬InRange left 40 address) → (right ≠ 0#64 → ¬InRange right 40 address) →
    other address = memory address

/-- What linking in a minor leaves. -/
structure LinkedIn (memory other : Memory) (maj left right new bytes reqSize : U64) : Prop where
  atNew : minorAt other new =
    ⟨left, right, maj, liballocMagic, bytes.setWidth 32, reqSize.setWidth 32⟩
  atMajor : majorAt other maj =
    { majorAt memory maj with
      usage := (majorAt memory maj).usage + (bytes + sizeofMinor).setWidth 32
      first := if left = 0#64 then new else (majorAt memory maj).first }
  atLeft : left ≠ 0#64 → minorAt other left = { minorAt memory left with next := new }
  atRight : right ≠ 0#64 → minorAt other right = { minorAt memory right with prev := new }
  diff : other (userPtr new - alignInfo) = (alignDiff new).setWidth 8
  outside : ∀ address, ¬InRange maj 40 address → ¬InRange new 56 address →
    (left ≠ 0#64 → ¬InRange left 40 address) → (right ≠ 0#64 → ¬InRange right 40 address) →
    other address = memory address

/-- A place was found: the pointer that is given out, and the heap with the minor. -/
structure MinorPlaced (heap : Liballoc) (result : U64 × Liballoc)
    (maj left right new bytes reqSize : U64) : Prop where
  ptr : result.1 = userPtr new
  rest : result.2 = { heap with memory := result.2.memory, inuse := heap.inuse + bytes }
  linked : LinkedIn heap.memory result.2.memory maj left right new bytes reqSize

namespace RoomFor

theorem new_major (room : RoomFor maj left right new) : Separate new 40 maj 40 :=
  room.major.mono (by decide) (Nat.le_refl 40)

theorem new_left (room : RoomFor maj left right new) (nonnull : left ≠ 0#64) :
    Separate new 40 left 40 :=
  (room.before nonnull).1.mono (by decide) (Nat.le_refl 40)

theorem new_right (room : RoomFor maj left right new) (nonnull : right ≠ 0#64) :
    Separate new 40 right 40 :=
  (room.behind nonnull).1.mono (by decide) (Nat.le_refl 40)

/-- Linked up, all that is left is the usage of the major and the distance. -/
theorem finish {wiredHeap : Liballoc} (room : RoomFor maj left right new)
    (rest : wiredHeap = { heap with memory := wiredHeap.memory })
    (wired : Wired heap.memory wiredHeap.memory maj left right new bytes reqSize) :
    MinorPlaced heap (finishMinor wiredHeap maj new bytes) maj left right new bytes reqSize := by
  have notMajor := room.major _ (diff_inRange new)
  have notNew := diff_outside new
  simp only [finishMinor, alignPtr_eq, Liballoc.read_majorUsage, Liballoc.write]
  refine ⟨rfl, ?_, ?_, ?_, ?_, ?_, Function.update_self .., ?_⟩
  · rw [rest]
  · rw [minorAt_update notNew, minorAt_write_separate room.new_major, wired.atNew]
  · rw [majorAt_update notMajor, majorAt_writeUsage, wired.atMajor]
  · intro nonnull
    have notLeft := (room.before nonnull).1 _ (diff_inRange new)
    rw [minorAt_update notLeft, minorAt_write_separate (room.before nonnull).2,
      wired.atLeft nonnull]
  · intro nonnull
    have notRight := (room.behind nonnull).1 _ (diff_inRange new)
    rw [minorAt_update notRight, minorAt_write_separate (room.behind nonnull).2,
      wired.atRight nonnull]
  · intro address offMajor offNew offLeft offRight
    have notDiff : address ≠ userPtr new - alignInfo := ((diff_inRange new).ne offNew).symm
    dsimp only
    rw [Function.update_of_ne notDiff, Field.write_outside (by decide) offMajor]
    exact wired.outside address offMajor (fun inside => offNew (inside.mono (by decide))) offLeft
      offRight

end RoomFor

theorem placeFirst_placed (isNew : new = maj + sizeofMajor) (room : RoomFor maj 0#64 0#64 new) :
    MinorPlaced heap (placeFirst heap maj bytes reqSize) maj 0#64 0#64 new bytes reqSize := by
  have newMajor := room.new_major
  have majorNew := newMajor.symm
  unfold placeFirst
  rw [← isNew]
  refine room.finish rfl ?_
  simp only [Liballoc.write_memory]
  refine ⟨?_, ?_, ?_, ?_, ?_⟩
  · simp
  · simp [majorNew]
  · simp
  · simp
  · intro address offMajor offNew _ _
    simp [Field.write_outside, offMajor, offNew]

theorem placeFront_placed (isNew : new = maj + sizeofMajor) (isFirst : heap.read majorFirst maj = right)
    (nonnull : right ≠ 0#64) (room : RoomFor maj 0#64 right new) :
    MinorPlaced heap (placeFront heap maj bytes reqSize) maj 0#64 right new bytes reqSize := by
  have newMajor := room.new_major
  have majorNew := newMajor.symm
  have newRight := room.new_right nonnull
  have rightNew := newRight.symm
  have rightMajor := (room.behind nonnull).2
  have majorRight := rightMajor.symm
  unfold placeFront
  rw [← isNew, isFirst]
  refine room.finish rfl ?_
  simp only [Liballoc.write_memory]
  refine ⟨?_, ?_, ?_, ?_, ?_⟩
  · simp [newMajor, newRight]
  · simp [majorNew, majorRight]
  · simp
  · intro _
    simp [rightNew, rightMajor]
  · intro address offMajor offNew _ offRight
    simp [Field.write_outside, offMajor, offNew, offRight nonnull]

theorem placeLast_placed (isNew : minorEnd heap left = new) (nonnull : left ≠ 0#64)
    (room : RoomFor maj left 0#64 new) :
    MinorPlaced heap (placeLast heap maj left bytes reqSize) maj left 0#64 new bytes reqSize := by
  have newMajor := room.new_major
  have majorNew := newMajor.symm
  have newLeft := room.new_left nonnull
  have leftNew := newLeft.symm
  have leftMajor := (room.before nonnull).2
  have majorLeft := leftMajor.symm
  unfold placeLast
  rw [isNew]
  refine room.finish rfl ?_
  simp only [Liballoc.write_memory]
  refine ⟨?_, ?_, ?_, ?_, ?_⟩
  · simp
  · simp [majorNew, majorLeft, nonnull]
  · intro _
    simp [leftNew]
  · simp
  · intro address offMajor offNew offLeft _
    simp [Field.write_outside, offNew, offLeft nonnull]

theorem placeBetween_placed (isNew : minorEnd heap left = new)
    (isNext : heap.read minorNext left = right) (leftNonnull : left ≠ 0#64)
    (rightNonnull : right ≠ 0#64) (room : RoomFor maj left right new) :
    MinorPlaced heap (placeBetween heap maj left bytes reqSize) maj left right new bytes reqSize := by
  have majorNew := room.new_major.symm
  have newLeft := room.new_left leftNonnull
  have newRight := room.new_right rightNonnull
  have leftNew := newLeft.symm
  have rightNew := newRight.symm
  have majorLeft := (room.before leftNonnull).2.symm
  have majorRight := (room.behind rightNonnull).2.symm
  have leftRight := room.across leftNonnull rightNonnull
  have rightLeft := leftRight.symm
  unfold placeBetween
  rw [isNew, isNext]
  refine room.finish rfl ?_
  simp only [Liballoc.write_memory]
  refine ⟨?_, ?_, ?_, ?_, ?_⟩
  · simp [newLeft, newRight]
  · simp [majorNew, majorLeft, majorRight, leftNonnull]
  · intro _
    simp [leftNew, leftRight]
  · intro _
    simp [rightNew, rightLeft]
  · intro address offMajor offNew offLeft offRight
    simp [Field.write_outside, offNew, offLeft leftNonnull, offRight rightNonnull]

/-! Taking a minor out -/

/-- The headers that taking a minor out concerns share no byte. -/
structure ApartFrom (maj left right min : U64) : Prop where
  major : Separate min 40 maj 40
  before : left ≠ 0#64 → Separate min 40 left 40 ∧ Separate left 40 maj 40
  behind : right ≠ 0#64 → Separate min 40 right 40 ∧ Separate right 40 maj 40
  across : left ≠ 0#64 → right ≠ 0#64 → Separate left 40 right 40

/-- What taking a minor out leaves. -/
structure LinkedOut (memory other : Memory) (maj left right min : U64) : Prop where
  atMinor : minorAt other min = { minorAt memory min with magic := liballocDead }
  atMajor : majorAt other maj =
    { majorAt memory maj with
      usage := (majorAt memory maj).usage - ((minorAt memory min).size + sizeofMinor.setWidth 32)
      first := if left = 0#64 then right else (majorAt memory maj).first }
  atLeft : left ≠ 0#64 → minorAt other left = { minorAt memory left with next := right }
  atRight : right ≠ 0#64 → minorAt other right = { minorAt memory right with prev := left }
  outside : ∀ address, ¬InRange maj 40 address → ¬InRange min 40 address →
    (left ≠ 0#64 → ¬InRange left 40 address) → (right ≠ 0#64 → ¬InRange right 40 address) →
    other address = memory address

theorem detachMinor_rest (heap : Liballoc) (maj min : U64) : detachMinor heap maj min =
    { heap with
      memory := (detachMinor heap maj min).memory
      inuse := heap.inuse - (heap.read minorSize min).setWidth 64 } := by
  unfold detachMinor unlinkMinor
  dsimp only
  split_ifs <;> rfl

theorem detachMinor_linkedOut (isLeft : (minorAt heap.memory min).prev = left)
    (isRight : (minorAt heap.memory min).next = right) (apart : ApartFrom maj left right min) :
    LinkedOut heap.memory (detachMinor heap maj min).memory maj left right min := by
  have minorMajor := apart.major
  have majorMinor := minorMajor.symm
  unfold detachMinor unlinkMinor
  simp only [Liballoc.read_minorNext, Liballoc.read_minorPrev, Liballoc.read_minorSize,
    Liballoc.read_majorUsage]
  by_cases leftNull : left = 0#64
  · subst leftNull
    by_cases rightNull : right = 0#64
    · subst rightNull
      refine ⟨?_, ?_, ?_, ?_, ?_⟩
      · simp [isLeft, isRight, minorMajor]
      · simp [isLeft, isRight, minorMajor, majorMinor]
      · simp
      · simp
      · intro address offMajor offMinor _ _
        simp [isLeft, isRight, minorMajor, Field.write_outside, offMajor, offMinor]
    · have minorRight := (apart.behind rightNull).1
      have rightMinor := minorRight.symm
      have rightMajor := (apart.behind rightNull).2
      have majorRight := rightMajor.symm
      refine ⟨?_, ?_, ?_, ?_, ?_⟩
      · simp [isLeft, isRight, minorMajor, rightNull, minorRight]
      · simp [isLeft, isRight, minorMajor, majorMinor, rightNull, minorRight, majorRight]
      · simp
      · intro _
        simp [isLeft, isRight, minorMajor, rightNull, minorRight, rightMinor, rightMajor]
      · intro address offMajor offMinor _ offRight
        simp [isLeft, isRight, minorMajor, rightNull, minorRight, Field.write_outside, offMajor,
          offMinor, offRight rightNull]
  · have minorLeft := (apart.before leftNull).1
    have leftMinor := minorLeft.symm
    have leftMajor := (apart.before leftNull).2
    have majorLeft := leftMajor.symm
    by_cases rightNull : right = 0#64
    · subst rightNull
      refine ⟨?_, ?_, ?_, ?_, ?_⟩
      · simp [isLeft, isRight, minorMajor, leftNull, minorLeft]
      · simp [isLeft, isRight, minorMajor, majorMinor, leftNull, minorLeft, majorLeft]
      · intro _
        simp [isLeft, isRight, minorMajor, leftNull, minorLeft, leftMinor, leftMajor]
      · simp
      · intro address offMajor offMinor offLeft _
        simp [isLeft, isRight, minorMajor, leftNull, minorLeft, Field.write_outside, offMajor,
          offMinor, offLeft leftNull]
    · have minorRight := (apart.behind rightNull).1
      have rightMinor := minorRight.symm
      have rightMajor := (apart.behind rightNull).2
      have majorRight := rightMajor.symm
      have leftRight := apart.across leftNull rightNull
      have rightLeft := leftRight.symm
      refine ⟨?_, ?_, ?_, ?_, ?_⟩
      · simp [isLeft, isRight, minorMajor, leftNull, minorLeft, rightNull, minorRight]
      · simp [isLeft, isRight, minorMajor, majorMinor, leftNull, minorLeft, majorLeft, rightNull,
          minorRight, majorRight]
      · intro _
        simp [isLeft, isRight, minorMajor, leftNull, minorLeft, leftMinor, leftMajor, rightNull,
          minorRight, leftRight]
      · intro _
        simp [isLeft, isRight, minorMajor, leftNull, minorLeft, rightNull, minorRight, rightMinor,
          rightMajor, rightLeft]
      · intro address offMajor offMinor offLeft offRight
        simp [isLeft, isRight, minorMajor, leftNull, minorLeft, rightNull, minorRight,
          Field.write_outside, offMajor, offMinor, offLeft leftNull, offRight rightNull]

/-! Blocks of pages -/

/-- What taking a block off the list leaves of the headers. -/
structure CutOut (memory other : Memory) (left right : U64) : Prop where
  atLeft : left ≠ 0#64 → majorAt other left = { majorAt memory left with next := right }
  atRight : right ≠ 0#64 → majorAt other right = { majorAt memory right with prev := left }
  outside : ∀ address, (left ≠ 0#64 → ¬InRange left 40 address) →
    (right ≠ 0#64 → ¬InRange right 40 address) → other address = memory address

theorem releaseBlock_cutOut (isLeft : (majorAt heap.memory maj).prev = left)
    (isRight : (majorAt heap.memory maj).next = right)
    (majorLeft : left ≠ 0#64 → Separate maj 40 left 40)
    (majorRight : right ≠ 0#64 → Separate maj 40 right 40)
    (across : left ≠ 0#64 → right ≠ 0#64 → Separate left 40 right 40) :
    CutOut heap.memory (releaseBlock heap maj).memory left right ∧
      releaseBlock heap maj =
        { heap with
          memory := (releaseBlock heap maj).memory
          memRoot := if heap.memRoot = maj then right else heap.memRoot
          bestBet := if heap.bestBet = maj then 0#64 else heap.bestBet
          allocated := heap.allocated - (majorAt heap.memory maj).size.setWidth 64
          pageCalls := heap.pageCalls ++ [.free maj (majorAt heap.memory maj).pages] } := by
  unfold releaseBlock Liballoc.pagesFree
  simp only [Liballoc.read_majorNext, Liballoc.read_majorPrev, Liballoc.read_majorSize,
    Liballoc.read_majorPages]
  by_cases leftNull : left = 0#64
  · subst leftNull
    by_cases rightNull : right = 0#64
    · subst rightNull
      refine ⟨⟨?_, ?_, ?_⟩, ?_⟩
      · simp
      · simp
      · simp [isLeft, isRight]
      · simp [isLeft, isRight]
    · have majorRight := majorRight rightNull
      have rightMajor := majorRight.symm
      refine ⟨⟨?_, ?_, ?_⟩, ?_⟩
      · simp
      · simp [isLeft, isRight, rightNull]
      · intro address _ offRight
        simp [isLeft, isRight, rightNull, Field.write_outside, offRight rightNull]
      · simp [isLeft, isRight, rightNull, majorRight]
  · have majorLeft := majorLeft leftNull
    by_cases rightNull : right = 0#64
    · subst rightNull
      refine ⟨⟨?_, ?_, ?_⟩, ?_⟩
      · simp [isLeft, isRight, leftNull, majorLeft]
      · simp
      · intro address offLeft _
        simp [isLeft, isRight, leftNull, majorLeft, Field.write_outside, offLeft leftNull]
      · simp [isLeft, isRight, leftNull, majorLeft]
    · have majorRight := majorRight rightNull
      have leftRight := across leftNull rightNull
      have rightLeft := leftRight.symm
      refine ⟨⟨?_, ?_, ?_⟩, ?_⟩
      · simp [isLeft, isRight, leftNull, rightNull, majorLeft, leftRight]
      · simp [isLeft, isRight, leftNull, rightNull, majorLeft, rightLeft]
      · intro address offLeft offRight
        simp [isLeft, isRight, leftNull, rightNull, majorLeft, Field.write_outside,
          offLeft leftNull, offRight rightNull]
      · simp [isLeft, isRight, leftNull, rightNull, majorLeft, majorRight]

theorem allocateNewPage_null {size : U32} (refused : heap.supply.headD 0#64 = 0#64) :
    allocateNewPage heap size = (0#64,
      { heap with
        supply := heap.supply.tail
        pageCalls := heap.pageCalls ++ [.alloc (newPageCount size) 0#64]
        warningCount := heap.warningCount + 1#64 }) := by
  unfold allocateNewPage Liballoc.pagesAlloc
  dsimp only
  rw [if_pos refused, refused]

/-- The pages are there, with the header of a block without minors. -/
structure NewPage (heap after : Liballoc) (page : U64) (pages : U32) : Prop where
  rest : after =
    { heap with
      memory := after.memory
      allocated := heap.allocated + (pages * lPageSize).setWidth 64
      supply := heap.supply.tail
      pageCalls := heap.pageCalls ++ [.alloc pages page] }
  atMajor : majorAt after.memory page =
    ⟨0#64, 0#64, pages, pages * lPageSize, sizeofMajor.setWidth 32, 0#64⟩
  outside : ∀ address, ¬InRange page 40 address → after.memory address = heap.memory address

theorem allocateNewPage_page {size count : U32} {page : U64} (isCount : newPageCount size = count)
    (given : heap.supply.headD 0#64 = page) (nonnull : page ≠ 0#64) :
    (allocateNewPage heap size).1 = page ∧
      NewPage heap (allocateNewPage heap size).2 page count := by
  unfold allocateNewPage Liballoc.pagesAlloc
  dsimp only
  rw [given, if_neg nonnull, isCount]
  refine ⟨rfl, ?_, ?_, ?_⟩
  · simp [Liballoc.read_majorSize]
  · simp
  · intro address off
    simp [Field.write_outside, off]

end Nekonix
