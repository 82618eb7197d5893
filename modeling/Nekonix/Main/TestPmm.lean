import Nekonix.Mm.Pmm

/-!
# The frame allocator's self-test in `main.c`

`test_pmm` compares the address that it writes to with `NULL` behind `HIGHER_HALF`, where the
`NULL` of the allocator has become the first address of the direct map.
-/

namespace Nekonix

variable {hhdmOffset : U64} {machine : Machine} {address : U64}

/-- One turn of `test_pmm`: whether the test goes on, and the state after it. -/
def testPmmTurn (hhdmOffset : U64) (machine : Machine) : Bool × Machine :=
  let (page, machine) := pmmRequestPage hhdmOffset machine
  let a := higherHalf hhdmOffset page
  if a = 0#64 then
    (false, machine)
  else
    let machine := { machine with memory := Memory.store32 machine.memory a 69#32 }
    if Memory.load32 machine.memory a ≠ 69#32 ∨ a = 0#64 then
      (false, pmmFreePage machine (physical hhdmOffset a))
    else
      (true, pmmFreePage machine (physical hhdmOffset a))

/-- `test_pmm`: the returned value and the state after it. -/
def testPmm (hhdmOffset : U64) : (tests : Nat) → Machine → U32 × Machine
  | 0, machine => (0#32, machine)
  | tests + 1, machine =>
      let (passed, machine) := testPmmTurn hhdmOffset machine
      if passed then testPmm hhdmOffset tests machine else (1#32, machine)

/-- The allocator in use: it has room for the frames it has given out, and `NULL` is none of its
frames.  The direct map leaves out address 0. -/
structure Testable (hhdmOffset : U64) (machine : Machine) : Prop where
  room : machine.stack.idx ≤ machine.stack.max
  nonzero : 0#64 ∉ machine.free
  mapped : ∀ page ∈ 0#64 :: machine.free, higherHalf hhdmOffset page ≠ 0#64

theorem length_free (machine : Machine) : machine.free.length = machine.stack.idx.toNat :=
  PmmStack.length_frames machine.stack

/-- The frame that a turn writes to: the top one, or page 0 where no frame is free. -/
def testedPage (machine : Machine) : U64 := machine.free.getLastD 0#64

/-- What a turn leaves: the allocator as it was, and the other pages. -/
structure TurnPassed (hhdmOffset : U64) (machine : Machine) (result : Bool × Machine) : Prop where
  passed : result.1 = true
  free : result.2.free = machine.free
  max : result.2.stack.max = machine.stack.max
  tested : Memory.load32 result.2.memory (higherHalf hhdmOffset (testedPage machine)) = 69#32
  outside : ∀ address,
    ¬FlatMemory.InRange (higherHalf hhdmOffset (testedPage machine)) 4096 address →
    result.2.memory address = machine.memory address

theorem load32_store32 (memory : Memory) (address : U64) (value : U32) :
    Memory.load32 (Memory.store32 memory address value) address = value := by
  unfold Memory.load32 Memory.store32
  rw [FlatMemory.load_store_same _ _ _ (by decide)]

theorem store32_outside {memory : Memory} {base : U64} {value : U32}
    (outside : ¬FlatMemory.InRange base 4096 address) :
    Memory.store32 memory base value address = memory address :=
  FlatMemory.store_outside fun inside => outside (inside.mono (by decide))

theorem testPmmTurn_passed (testable : Testable hhdmOffset machine) :
    TurnPassed hhdmOffset machine (testPmmTurn hhdmOffset machine) := by
  unfold testPmmTurn
  by_cases empty : machine.free = []
  · -- the test goes on with the first address of the direct map, and `NULL` is not given back
    have nonnull := testable.mapped 0#64 List.mem_cons_self
    have isTested : testedPage machine = 0#64 := by rw [testedPage, empty]; rfl
    rw [pmmRequestPage_empty empty]
    simp only [load32_store32, ne_eq, not_true_eq_false, nonnull, or_self, if_false,
      physical_higherHalf, pmmFreePage_null]
    refine ⟨rfl, rfl, rfl, ?_, ?_⟩
    · rw [isTested]
      exact load32_store32 _ _ _
    · rw [isTested]
      exact fun _ outside => store32_outside outside
  · have requested := pmmRequestPage_spec hhdmOffset empty
    generalize pmmRequestPage hhdmOffset machine = result at requested
    obtain ⟨page, next⟩ := result
    obtain ⟨free, memory, max⟩ := requested
    dsimp only at free memory max
    have isTested : testedPage machine = page := by
      rw [testedPage, free, List.getLastD_eq_getLast?, List.getLast?_concat]
      rfl
    have isFree : page ∈ machine.free := by simp [free]
    have nonnull := testable.mapped page (List.mem_cons_of_mem _ isFree)
    have pageNonnull : page ≠ 0#64 := fun isNull => testable.nonzero (isNull ▸ isFree)
    have below : next.stack.idx < next.stack.max := by
      have room := testable.room
      have lengths := congrArg List.length free
      rw [List.length_append, List.length_singleton, length_free, length_free] at lengths
      rw [BitVec.le_def] at room
      rw [BitVec.lt_def, max]
      omega
    have returned (memory : Memory) :
        (pmmFreePage ⟨memory, next.stack⟩ page).free = next.free ++ [page] :=
      @pmmFreePage_free ⟨memory, next.stack⟩ page pageNonnull below
    simp only [load32_store32, ne_eq, not_true_eq_false, nonnull, or_self, if_false,
      physical_higherHalf]
    refine ⟨rfl, ?_, ?_, ?_, ?_⟩
    · rw [free]
      exact returned _
    · rw [pmmFreePage_max]
      exact max
    · rw [isTested, pmmFreePage_memory]
      exact load32_store32 _ _ _
    · rw [isTested]
      intro address outside
      rw [pmmFreePage_memory]
      refine (store32_outside outside).trans ?_
      rw [memory, FlatMemory.fill_outside outside]

/-- `test_pmm` cannot fail.  Whatever the allocator has, no free frame included, it returns 0 and
leaves the same frames free in the same order, and it has written to the top one, or to page 0
where there was none. -/
theorem test_pmm_passes (testable : Testable hhdmOffset machine) (tests : Nat) :
    (testPmm hhdmOffset tests machine).1 = 0#32 ∧
      (testPmm hhdmOffset tests machine).2.free = machine.free ∧
      (0 < tests → Memory.load32 (testPmm hhdmOffset tests machine).2.memory
        (higherHalf hhdmOffset (testedPage machine)) = 69#32) ∧
      ∀ address, ¬FlatMemory.InRange (higherHalf hhdmOffset (testedPage machine)) 4096 address →
        (testPmm hhdmOffset tests machine).2.memory address = machine.memory address := by
  induction tests generalizing machine with
  | zero => exact ⟨rfl, rfl, fun positive => absurd positive (Nat.lt_irrefl 0), fun _ _ => rfl⟩
  | succ tests inductionHypothesis =>
      have turn := testPmmTurn_passed testable
      unfold testPmm
      generalize testPmmTurn hhdmOffset machine = result at turn
      obtain ⟨passed, next⟩ := result
      obtain ⟨isPassed, free, max, tested, outside⟩ := turn
      dsimp only at isPassed free max tested outside
      have sameTested : testedPage next = testedPage machine := by rw [testedPage, free, testedPage]
      have nextTestable : Testable hhdmOffset next := by
        refine ⟨?_, free ▸ testable.nonzero, free ▸ testable.mapped⟩
        have room := testable.room
        have lengths := congrArg List.length free
        rw [length_free, length_free] at lengths
        rw [BitVec.le_def] at room ⊢
        rw [max, lengths]
        exact room
      obtain ⟨isZero, laterFree, laterTested, laterOutside⟩ := inductionHypothesis nextTestable
      rw [sameTested] at laterTested laterOutside
      simp only [isPassed, if_true]
      refine ⟨isZero, laterFree.trans free, fun _ => ?_, fun address off => ?_⟩
      · cases tests with
        | zero => exact tested
        | succ more => exact laterTested (Nat.succ_pos more)
      · exact (laterOutside address off).trans (outside address off)

/-- An allocator without a frame. -/
def noFrames : Machine where
  memory := fun _ => 0#8
  stack := ⟨fun _ => 0#64, 0#64, 0#64⟩

theorem test_pmm_passes_noFrames :
    (testPmm 0xFFFF800000000000#64 10 noFrames).1 = 0#32 ∧
      Memory.load32 (testPmm 0xFFFF800000000000#64 10 noFrames).2.memory
        0xFFFF800000000000#64 = 69#32 := by
  have testable : Testable 0xFFFF800000000000#64 noFrames := by
    refine ⟨by decide, by simp [Machine.free, noFrames, PmmStack.frames], ?_⟩
    intro page member
    rw [List.mem_singleton.mp member]
    decide
  obtain ⟨isZero, -, tested, -⟩ := test_pmm_passes testable 10
  exact ⟨isZero, tested (by decide)⟩

end Nekonix
