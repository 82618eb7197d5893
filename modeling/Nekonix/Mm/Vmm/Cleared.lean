import Mathlib.Data.List.Nodup
import Nekonix.Mm.Vmm.Mapping

/-!
# Cleared tables

A cleared table is an address space without mappings.  A machine whose memory
is all zero gives concrete ones.
-/

namespace Nekonix

open FlatMemory RadixTable

variable {hhdmOffset : U64} {machine : Machine} {root : Frame} {slots : Set Slot}

/-- Through cleared slots no further table is reached. -/
theorem reached_of_cleared {memory : Memory}
    (cleared : ∀ index ∈ slots, tables hhdmOffset memory root index = 0#64) {path : List Slot}
    (membership : path ∈ within slots) {table : Frame}
    (reached : follow pageFormat (tables hhdmOffset memory) root path = some table) :
    path = [] ∧ table = root := by
  cases path with
  | nil => exact ⟨rfl, (Option.some.inj reached).symm⟩
  | cons index rest =>
      have absent : RadixTable.next pageFormat (tables hhdmOffset memory) root index = none := by
        rw [next_eq_none_iff, cleared index (membership.2 index rfl)]
        rfl
      rw [follow_cons, absent] at reached
      cases reached

/-- A table with cleared slots that is not free is an address space without mappings there. -/
theorem AddressSpace.of_cleared
    (cleared : ∀ index ∈ slots, tables hhdmOffset machine.memory root index = 0#64)
    (notFree : root.address ∉ machine.free) : AddressSpace hhdmOffset machine root slots := by
  constructor
  · intro first second table firstIn secondIn firstReached secondReached
    rw [(reached_of_cleared cleared firstIn firstReached).1,
      (reached_of_cleared cleared secondIn secondReached).1]
  · intro path membership table reached
    rw [(reached_of_cleared cleared membership reached).2]
    exact notFree

theorem leafEntry_of_cleared {memory : Memory} {virt : U64}
    (cleared : tables hhdmOffset memory root (slot4 virt) = 0#64) :
    leafEntry hhdmOffset memory root virt = none := by
  rw [leafEntry, entryAt, tablePath, follow_cons,
    next_eq_none_iff.mpr (by rw [cleared]; rfl)]
  rfl

/-- A machine with cleared memory whose free stack holds the `count` frames from
number 2 on. -/
def Machine.cleared (count : Nat) : Machine where
  memory := fun _ => 0#8
  stack :=
    { pages := fun slot => (slot + 2#64) <<< 12
      idx := BitVec.ofNat 64 count
      max := BitVec.ofNat 64 count }

theorem Machine.free_cleared {count : Nat} (small : count < 2 ^ 39) :
    (cleared count).free =
      (List.range count).map fun number => Frame.address (BitVec.ofNat 40 (number + 2)) := by
  have slots : (BitVec.ofNat 64 count).toNat = count := by
    rw [BitVec.toNat_ofNat]
    omega
  simp only [free, PmmStack.frames, cleared, slots]
  apply List.map_congr_left
  intro number membership
  have bound := List.mem_range.mp membership
  apply BitVec.eq_of_toNat_eq
  rw [Frame.address_toNat]
  simp only [BitVec.toNat_shiftLeft, BitVec.toNat_add, BitVec.toNat_ofNat, Nat.shiftLeft_eq]
  omega

theorem Machine.length_free_cleared {count : Nat} (small : count < 2 ^ 39) :
    (cleared count).free.length = count := by
  rw [free_cleared small, List.length_map, List.length_range]

theorem Machine.usable_cleared {count : Nat} (small : count < 2 ^ 39) :
    (cleared count).stack.Usable := by
  have free := free_cleared small
  change (cleared count).stack.frames = _ at free
  constructor
  · intro page membership
    rw [free, List.mem_map] at membership
    obtain ⟨number, inRange, rfl⟩ := membership
    have bound := List.mem_range.mp inRange
    refine ⟨BitVec.ofNat 40 (number + 2), ?_, rfl⟩
    intro zero
    have numbers := congrArg BitVec.toNat zero
    simp only [BitVec.toNat_ofNat] at numbers
    omega
  · rw [free]
    refine List.Nodup.map_on ?_ List.nodup_range
    intro first firstIn second secondIn same
    have firstBound := List.mem_range.mp firstIn
    have secondBound := List.mem_range.mp secondIn
    have numbers := congrArg BitVec.toNat (Frame.address_inj.mp same)
    simp only [BitVec.toNat_ofNat] at numbers
    omega

theorem Machine.tables_cleared (count : Nat) (frame : Frame) (index : Slot) :
    tables hhdmOffset (cleared count).memory frame index = 0#64 := by
  apply load_eq_of_bytes
  intro offset below
  rw [BitVec.extractLsb'_zero]
  rfl

theorem Machine.mem_free_cleared {count : Nat} (small : count < 2 ^ 39) {frame : Frame}
    (free : frame.address ∈ (cleared count).free) : 2 ≤ frame.toNat ∧ frame.toNat < count + 2 := by
  rw [free_cleared small, List.mem_map] at free
  obtain ⟨number, inRange, same⟩ := free
  have bound := List.mem_range.mp inRange
  rw [← Frame.address_inj.mp same, BitVec.toNat_ofNat]
  omega

theorem Machine.root_not_free {count : Nat} (small : count < 2 ^ 39) :
    Frame.address 1#40 ∉ (cleared count).free := by
  intro free
  have bounds := mem_free_cleared small free
  simp at bounds

/-- Frame 1 of a cleared machine is an empty top-level table. -/
theorem Machine.addressSpace_cleared {count : Nat} (small : count < 2 ^ 39) :
    AddressSpace hhdmOffset (cleared count) 1#40 slots :=
  .of_cleared (fun index _ => tables_cleared count 1#40 index) (root_not_free small)

end Nekonix
