import Nekonix.Library.Run
import Nekonix.Mm.Vmm.Unmapping
import Nekonix.Mm.Vmm.Cleared

/-!
# Page tables refine a finite map

A run of mappings and unmappings on one top-level table behaves like updates of
a map from page numbers to frames.
-/

namespace Nekonix

open FlatMemory RadixTable Transition

/-- A call on a fixed top-level table. -/
inductive VmmCall where
  | map (virt phys flags : U64)
  | unmap (virt : U64)

def vmmCall (hhdmOffset pagemap : U64) (machine : Machine) : VmmCall → Machine
  | .map virt phys flags => vmmMap hhdmOffset machine pagemap virt phys flags
  | .unmap virt => vmmUnmap hhdmOffset machine pagemap virt

/-- The page a call is about. -/
def VmmCall.page : VmmCall → BitVec 36
  | .map virt _ _ => pageNumber virt
  | .unmap virt => pageNumber virt

/-- The entry a call leaves for its page. -/
def VmmCall.entry : VmmCall → U64
  | .map _ phys flags => phys ||| flags
  | .unmap _ => 0#64

/-- The translation a call leaves for its page. -/
def VmmCall.frame : VmmCall → U64
  | .map _ phys _ => phys
  | .unmap _ => 0#64

/-- A mapping names a frame below 2^52, marks it present, and finds the frames
for the tables it lacks. -/
def VmmCall.Allowed (hhdmOffset pagemap : U64) (machine : Machine) : VmmCall → Prop
  | .map virt phys flags =>
      phys &&& entryMask = phys ∧ EntryFlags flags ∧
        missingTables hhdmOffset machine.memory pagemap virt ≤ machine.free.length
  | .unmap _ => True

/-- A usable frame stack and a tree of tables apart from it. -/
structure Maintained (hhdmOffset : U64) (root : Frame) (slots : Set Slot) (machine : Machine) :
    Prop where
  usable : machine.stack.Usable
  space : AddressSpace hhdmOffset machine root slots

variable {hhdmOffset : U64} {machine next : Machine} {root : Frame} {call : VmmCall}

theorem Maintained.step (maintained : Maintained hhdmOffset root Set.univ machine)
    (step : guarded (vmmCall hhdmOffset (root.pointer hhdmOffset))
      (VmmCall.Allowed hhdmOffset (root.pointer hhdmOffset)) machine call next) :
    Maintained hhdmOffset root Set.univ next := by
  obtain ⟨allowed, rfl⟩ := step
  cases call with
  | map virt phys flags =>
      obtain ⟨-, valid, available⟩ := allowed
      obtain ⟨created, -, mapped⟩ := vmmMap_spec _ phys maintained.usable maintained.space
        (Set.mem_univ _) valid available
      exact ⟨mapped.usable, mapped.space⟩
  | unmap virt =>
      have unmapped := vmmUnmap_spec maintained.space (Set.mem_univ (slot4 virt))
      refine ⟨?_, unmapped.space⟩
      simpa [vmmCall, unmapped.stack] using maintained.usable

theorem Maintained.leafEntry_call (maintained : Maintained hhdmOffset root Set.univ machine)
    (step : guarded (vmmCall hhdmOffset (root.pointer hhdmOffset))
      (VmmCall.Allowed hhdmOffset (root.pointer hhdmOffset)) machine call next) (virt : U64) :
    (leafEntry hhdmOffset next.memory root virt).getD 0#64 =
      if call.page = pageNumber virt then call.entry
      else (leafEntry hhdmOffset machine.memory root virt).getD 0#64 := by
  obtain ⟨allowed, rfl⟩ := step
  cases call with
  | map other phys flags =>
      obtain ⟨-, valid, available⟩ := allowed
      obtain ⟨created, -, mapped⟩ := vmmMap_spec _ phys maintained.usable maintained.space
        (Set.mem_univ _) valid available
      have leaf := mapped.leaf virt (Set.mem_univ _)
      simpa only [vmmCall, VmmCall.page, VmmCall.entry, eq_comm] using leaf
  | unmap other =>
      have leaf := (vmmUnmap_spec maintained.space (Set.mem_univ (slot4 other))).leaf virt
        (Set.mem_univ _)
      simpa only [vmmCall, VmmCall.page, VmmCall.entry, eq_comm] using leaf

theorem VmmCall.Allowed.entry_masked
    (allowed : call.Allowed hhdmOffset (root.pointer hhdmOffset) machine) :
    call.entry &&& entryMask = call.frame := by
  cases call with
  | map virt phys flags =>
      obtain ⟨aligned, valid, -⟩ := allowed
      simp only [entry, frame]
      rw [BitVec.and_comm, BitVec.and_or_distrib_left, BitVec.and_comm entryMask phys, aligned,
        BitVec.and_comm entryMask flags, valid.address, BitVec.or_zero]
  | unmap virt => exact BitVec.zero_and

/-- One call updates the translation at its own page. -/
theorem Maintained.virtToPhys_call (maintained : Maintained hhdmOffset root Set.univ machine)
    (step : guarded (vmmCall hhdmOffset (root.pointer hhdmOffset))
      (VmmCall.Allowed hhdmOffset (root.pointer hhdmOffset)) machine call next) (virt : U64) :
    virtToPhys hhdmOffset next.memory (root.pointer hhdmOffset) virt =
      if call.page = pageNumber virt then call.frame
      else virtToPhys hhdmOffset machine.memory (root.pointer hhdmOffset) virt := by
  rw [virtToPhys_eq, virtToPhys_eq, maintained.leafEntry_call step]
  split
  · exact step.1.entry_masked
  · rfl

/-- After any run of calls, a page translates to what the last call on it says,
and to what it did before if there was none, which is nothing where the
top-level table was clear. -/
theorem vmm_refines_finite_map {hhdmOffset : U64} {machine final : Machine} {root : Frame}
    {calls : List VmmCall} (usable : machine.stack.Usable)
    (space : AddressSpace hhdmOffset machine root Set.univ)
    (run : Run (guarded (vmmCall hhdmOffset (root.pointer hhdmOffset))
      (VmmCall.Allowed hhdmOffset (root.pointer hhdmOffset))) machine calls final) (virt : U64) :
    virtToPhys hhdmOffset final.memory (root.pointer hhdmOffset) virt =
        ((lastAt VmmCall.page calls (pageNumber virt)).map VmmCall.frame).getD
          (virtToPhys hhdmOffset machine.memory (root.pointer hhdmOffset) virt) ∧
      ((∀ index, tables hhdmOffset machine.memory root index = 0#64) →
        virtToPhys hhdmOffset final.memory (root.pointer hhdmOffset) virt =
          ((lastAt VmmCall.page calls (pageNumber virt)).map VmmCall.frame).getD 0#64) := by
  have updated : virtToPhys hhdmOffset final.memory (root.pointer hhdmOffset) virt =
      ((lastAt VmmCall.page calls (pageNumber virt)).map VmmCall.frame).getD
        (virtToPhys hhdmOffset machine.memory (root.pointer hhdmOffset) virt) := by
    refine run.lastAt (Maintained hhdmOffset root Set.univ) ⟨usable, space⟩ ?_ VmmCall.page
      VmmCall.frame (pageNumber virt)
      (fun state => virtToPhys hhdmOffset state.memory (root.pointer hhdmOffset) virt) ?_
    · intro state call next maintained step
      exact maintained.step step
    · intro state call next maintained step
      exact maintained.virtToPhys_call step virt
  refine ⟨updated, ?_⟩
  intro cleared
  rw [updated, virtToPhys_eq, leafEntry_of_cleared (cleared _)]
  rfl

/-- On a cleared machine the first mapping finds the frames for its tables. -/
theorem VmmCall.allowed_cleared {count : Nat} (enough : 3 ≤ count) (small : count < 2 ^ 39)
    {virt phys flags : U64} (aligned : phys &&& entryMask = phys) (valid : EntryFlags flags) :
    (VmmCall.map virt phys flags).Allowed hhdmOffset (root.pointer hhdmOffset)
      (Machine.cleared count) := by
  refine ⟨aligned, valid, (missingTables_le _ _ _ _).trans ?_⟩
  rw [Machine.length_free_cleared small]
  exact enough

theorem vmm_refines_finite_map_cleared :
    virtToPhys 0#64
        (vmmUnmap 0#64 (vmmMap 0#64 (Machine.cleared 9) (Frame.pointer 0#64 1#40) 0x1000#64
          0x7000#64 vmmPresent) (Frame.pointer 0#64 1#40) 0x2000#64).memory
        (Frame.pointer 0#64 1#40) 0x1000#64 = 0x7000#64 := by
  have mapping : (VmmCall.map 0x1000#64 0x7000#64 vmmPresent).Allowed 0#64
      (Frame.pointer 0#64 1#40) (Machine.cleared 9) :=
    VmmCall.allowed_cleared (by decide) (by decide) (by decide) ⟨by decide, by decide⟩
  have unmapping : (VmmCall.unmap 0x2000#64).Allowed 0#64 (Frame.pointer 0#64 1#40)
      (vmmCall 0#64 (Frame.pointer 0#64 1#40) (Machine.cleared 9)
        (.map 0x1000#64 0x7000#64 vmmPresent)) := trivial
  have refined := vmm_refines_finite_map (Machine.usable_cleared (by decide))
    (Machine.addressSpace_cleared (by decide)) ((Run.nil.snoc ⟨mapping, rfl⟩).snoc
      ⟨unmapping, rfl⟩) 0x1000#64
  exact refined.2 (Machine.tables_cleared 9 1#40)

/-- The starting translations do not vanish by themselves. -/
theorem vmm_refines_finite_map_needs_start :
    ¬∀ (machine final : Machine) (root : Frame) (calls : List VmmCall),
      machine.stack.Usable → AddressSpace 0#64 machine root Set.univ →
      Run (guarded (vmmCall 0#64 (root.pointer 0#64))
        (VmmCall.Allowed 0#64 (root.pointer 0#64))) machine calls final →
      ∀ virt, virtToPhys 0#64 final.memory (root.pointer 0#64) virt =
        ((lastAt VmmCall.page calls (pageNumber virt)).map VmmCall.frame).getD 0#64 := by
  intro vanishing
  have initially : Maintained 0#64 1#40 Set.univ (Machine.cleared 9) :=
    ⟨Machine.usable_cleared (by decide), Machine.addressSpace_cleared (by decide)⟩
  have mapping : (VmmCall.map 0x1000#64 0x7000#64 vmmPresent).Allowed 0#64
      (Frame.pointer 0#64 1#40) (Machine.cleared 9) :=
    VmmCall.allowed_cleared (by decide) (by decide) (by decide) ⟨by decide, by decide⟩
  have maintained := initially.step ⟨mapping, rfl⟩
  have translated := initially.virtToPhys_call ⟨mapping, rfl⟩ 0x1000#64
  have claimed := vanishing _ _ 1#40 [] maintained.usable maintained.space .nil 0x1000#64
  rw [translated] at claimed
  revert claimed
  decide

end Nekonix
