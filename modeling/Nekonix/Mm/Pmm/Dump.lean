import Nekonix.Library.Loop.Counter
import Nekonix.Mm.Pmm

/-!
# The dump of `mm/pmm.c`

`pmm_dump` lists the free frames at the bottom and at the top of the stack, in two loops
with unsigned counters.  The bound of the second one wraps around below 10 free frames,
and with exactly 10 its counter does.  The address of the array is left out.
-/

namespace Nekonix

open Loop

/-- What `pmm_dump` prints: the listed frames with their slots, and the totals. -/
structure PmmDump where
  totalPages : U64
  freePages : U64
  first : List (U64 × U64)
  last : List (U64 × U64)
  usableMemory : U64
  lowAddress : U64
  highAddress : U64
deriving DecidableEq

/-- `for (u64 i = 0; i < (stack.idx < 10 ? stack.idx : 10); i++)` -/
def dumpFirstTurn (stack : PmmStack) : U64 → Turn U64 Unit :=
  countUp (if stack.idx < 10#64 then stack.idx else 10#64) 1#64

/-- `for (u64 i = stack.idx - 1; i >= (stack.idx - 10 > 0 ? stack.idx - 10 : 0); i--)` -/
def dumpLastTurn (stack : PmmStack) : U64 → Turn U64 Unit :=
  countDown (if stack.idx - 10#64 > 0#64 then stack.idx - 10#64 else 0#64) 1#64

/-- The frames in some slots. -/
def dumpFrames (stack : PmmStack) (slots : List U64) : List (U64 × U64) :=
  slots.map fun i => (i, stack.pages i)

/-- What the two loops list, or `none` while one still runs after `fuel` turns.  A frame
is listed in every turn but the last, which leaves the loop. -/
def dumpListings (fuel : Nat) (stack : PmmStack) : Option (List (U64 × U64) × List (U64 × U64)) :=
  if stack.idx = 0#64 then
    some ([], [])
  else do
    let (first, _) ← run (dumpFirstTurn stack) fuel 0#64
    let (last, _) ← run (dumpLastTurn stack) fuel (stack.idx - 1#64)
    some (dumpFrames stack first.dropLast, dumpFrames stack last.dropLast)

def pmmDump (fuel : Nat) (stack : PmmStack) : Option PmmDump :=
  (dumpListings fuel stack).map fun (first, last) =>
    { totalPages := stack.max
      freePages := stack.idx
      first
      last
      usableMemory := stack.max * pageSize
      lowAddress := stack.pages 0#64
      highAddress := stack.pages ((if stack.idx = 0#64 then 1#64 else stack.idx) - 1#64) }

/-- The loops read slots of free frames only, and the second one lists the highest ten of
them, or all of fewer, from the top down. -/
structure PmmDump.Complete (stack : PmmStack) (dump : PmmDump) : Prop where
  firstFree : ∀ entry ∈ dump.first, entry.1 < stack.idx
  lastFree : ∀ entry ∈ dump.last, entry.1 < stack.idx
  highest : dump.last =
    dumpFrames stack (downwards 1#64 (stack.idx - 1#64) (min 10 stack.idx.toNat))

variable {stack : PmmStack} {fuel : Nat} {dump : PmmDump}

/-- The first loop always lists the lowest ten, or all of fewer. -/
theorem dumpFirst_ends (stack : PmmStack) :
    Ends (dumpFirstTurn stack) 0#64 (upwards 1#64 0#64 (min 10 stack.idx.toNat + 1)) () := by
  have one : (1#64 : U64).toNat = 1 := rfl
  have zero : (0#64 : U64).toNat = 0 := rfl
  have bound : (if stack.idx < 10#64 then stack.idx else 10#64).toNat =
      min 10 stack.idx.toNat := by
    split_ifs with few <;> bv_omega
  apply countUp_ends
  · rw [zero, one]
    omega
  · intro turn less
    rw [zero, one, bound]
    omega
  · rw [zero, one, bound]
    omega

theorem dumpFirst_free {slot : U64}
    (listed : slot ∈ upwards 1#64 0#64 (min 10 stack.idx.toNat)) : slot < stack.idx := by
  obtain ⟨turn, inRange, rfl⟩ := List.mem_map.mp listed
  have less := List.mem_range.mp inRange
  bv_omega

/-- From 11 free frames on the second loop lists the highest ten. -/
theorem dumpLast_ends (many : 10#64 < stack.idx) :
    Ends (dumpLastTurn stack) (stack.idx - 1#64) (downwards 1#64 (stack.idx - 1#64) 11) () := by
  have one : (1#64 : U64).toNat = 1 := rfl
  have top : (stack.idx - 1#64).toNat = stack.idx.toNat - 1 := by bv_omega
  have enough : 10 < stack.idx.toNat := many
  have bound : (if stack.idx - 10#64 > 0#64 then stack.idx - 10#64 else 0#64).toNat =
      stack.idx.toNat - 10 := by
    split_ifs with positive <;> bv_omega
  apply countDown_ends
  · rw [one]
    omega
  · intro turn less
    rw [one, bound]
    omega
  · rw [one, bound]
    omega

theorem dumpLast_free (many : 10#64 < stack.idx) {slot : U64}
    (listed : slot ∈ downwards 1#64 (stack.idx - 1#64) 10) : slot < stack.idx := by
  obtain ⟨turn, inRange, rfl⟩ := List.mem_map.mp listed
  have less := List.mem_range.mp inRange
  bv_omega

/-- Below 10 free frames the bound wraps around, and the second loop lists nothing. -/
theorem dumpLast_few (few : stack.idx < 10#64) (nonempty : stack.idx ≠ 0#64) :
    dumpLastTurn stack (stack.idx - 1#64) = .leave () := by
  have positive : stack.idx - 10#64 > 0#64 := by bv_omega
  unfold dumpLastTurn countDown
  rw [if_pos positive, if_neg]
  bv_omega

/-- With 10 free frames the bound is 0, and the second loop never ends. -/
theorem dumpLast_ten (ten : stack.idx = 10#64) {heads : List U64} :
    ¬Ends (dumpLastTurn stack) (stack.idx - 1#64) heads () := by
  unfold dumpLastTurn
  rw [ten]
  exact countDown_zero 1#64 _

/-- With more than 10 free frames both loops end. -/
theorem dumpListings_many (many : 10#64 < stack.idx) :
    ∃ fuel, dumpListings fuel stack =
      some (dumpFrames stack (upwards 1#64 0#64 (min 10 stack.idx.toNat)),
        dumpFrames stack (downwards 1#64 (stack.idx - 1#64) 10)) := by
  have nonempty : stack.idx ≠ 0#64 := by bv_omega
  obtain ⟨firstFuel, first⟩ := ends_iff_run.mp (dumpFirst_ends stack)
  obtain ⟨lastFuel, last⟩ := ends_iff_run.mp (dumpLast_ends many)
  refine ⟨max firstFuel lastFuel, ?_⟩
  unfold dumpListings
  rw [if_neg nonempty, run_more first (Nat.le_max_left _ _), run_more last (Nat.le_max_right _ _)]
  simp only [Option.bind_eq_bind, Option.bind_some, dropLast_upwards, dropLast_downwards]

/-- `pmm_dump` ends and lists what it says exactly if no frame is free or more than 10 are. -/
theorem pmm_dump_complete_iff (stack : PmmStack) :
    (∃ fuel dump, pmmDump fuel stack = some dump ∧ dump.Complete stack) ↔
      stack.idx = 0#64 ∨ 10#64 < stack.idx := by
  constructor
  · rintro ⟨fuel, dump, dumped, complete⟩
    by_contra neither
    rw [not_or] at neither
    obtain ⟨nonempty, few⟩ := neither
    obtain ⟨⟨first, last⟩, listings, rfl⟩ := Option.map_eq_some_iff.mp dumped
    unfold dumpListings at listings
    rw [if_neg nonempty] at listings
    obtain ⟨⟨firstHeads, _⟩, -, listings⟩ := Option.bind_eq_some_iff.mp listings
    obtain ⟨⟨lastHeads, _⟩, lastRun, listings⟩ := Option.bind_eq_some_iff.mp listings
    cases listings
    have ends := ends_iff_run.mpr ⟨fuel, lastRun⟩
    by_cases ten : stack.idx = 10#64
    · exact dumpLast_ten ten ends
    · have fewer : stack.idx < 10#64 := by bv_omega
      have leaves := dumpLast_few fewer nonempty
      cases ends with
      | turn isNext _ =>
          rw [leaves] at isNext
          cases isNext
      | leave _ =>
          have count := congrArg List.length complete.highest
          simp only [List.dropLast_singleton, dumpFrames, List.map_nil, List.length_nil,
            List.length_map, downwards, List.length_range] at count
          bv_omega
  · rintro (empty | many)
    · have listings : dumpListings 0 stack = some ([], []) := if_pos empty
      refine ⟨0, _, by rw [pmmDump, listings]; rfl, ?_⟩
      refine ⟨by simp, by simp, ?_⟩
      rw [empty]
      rfl
    · obtain ⟨fuel, listings⟩ := dumpListings_many many
      refine ⟨fuel, _, by rw [pmmDump, listings]; rfl, ?_⟩
      have ten : min 10 stack.idx.toNat = 10 := by bv_omega
      refine ⟨?_, ?_, by rw [ten]⟩
      · intro entry listed
        obtain ⟨slot, inList, rfl⟩ := List.mem_map.mp listed
        exact dumpFirst_free inList
      · intro entry listed
        obtain ⟨slot, inList, rfl⟩ := List.mem_map.mp listed
        exact dumpLast_free many inList

/-- Ten free frames. -/
def tenFree : PmmStack where
  pages := fun slot => (slot + 2#64) <<< 12
  idx := 10#64
  max := 10#64

/-- With ten free frames `pmm_dump` never returns. -/
theorem pmm_dump_runs_away :
    ¬∀ stack : PmmStack, stack.idx ≤ stack.max →
      ∃ fuel dump, pmmDump fuel stack = some dump ∧ dump.Complete stack := by
  intro claim
  obtain ⟨fuel, dump, dumped, -⟩ := claim tenFree (by decide)
  obtain ⟨_, listings, -⟩ := Option.map_eq_some_iff.mp dumped
  unfold dumpListings at listings
  rw [if_neg (by decide)] at listings
  obtain ⟨_, -, listings⟩ := Option.bind_eq_some_iff.mp listings
  obtain ⟨⟨heads, _⟩, ran, -⟩ := Option.bind_eq_some_iff.mp listings
  exact dumpLast_ten rfl (ends_iff_run.mpr ⟨fuel, ran⟩)

end Nekonix
