import Nekonix.Mm.Vmm.Mapping

/-!
# What one unmapping does

`vmm_unmap` clears the leaf of its address, or the absent link at which the
walk ends; neither moves a table.
-/

namespace Nekonix

open FlatMemory RadixTable

variable {hhdmOffset : U64} {machine next : Machine} {root : Frame} {slots : Set Slot}
  {path : List Slot}

/-- What unmapping `virt` does. -/
structure Unmapped (hhdmOffset : U64) (root : Frame) (slots : Set Slot) (virt : U64)
    (machine next : Machine) : Prop where
  stack : next.stack = machine.stack
  space : AddressSpace hhdmOffset next root slots
  leaf : ∀ other, slot4 other ∈ slots →
    (leafEntry hhdmOffset next.memory root other).getD 0#64 =
      if pageNumber other = pageNumber virt then 0#64
      else (leafEntry hhdmOffset machine.memory root other).getD 0#64
  follow : ∀ path ∈ within slots,
    follow pageFormat (tables hhdmOffset next.memory) root path =
      follow pageFormat (tables hhdmOffset machine.memory) root path
  outside : ∀ address,
    (∀ path table, path <+: tablePath virt →
      RadixTable.follow pageFormat (tables hhdmOffset machine.memory) root path = some table →
      ¬table.Holds hhdmOffset address) →
    next.memory address = machine.memory address

/-- Clearing one entry on the walk of `virt` that moves no table. -/
theorem AddressSpace.clear {virt : U64} {table : Frame} {index : Slot}
    (space : AddressSpace hhdmOffset machine root slots) (start : slot4 virt ∈ slots)
    (onPath : path <+: tablePath virt)
    (reached : follow pageFormat (tables hhdmOffset machine.memory) root path = some table)
    (same : ∀ other ∈ within slots,
      follow pageFormat (write (tables hhdmOffset machine.memory) table index 0#64) root other =
        follow pageFormat (tables hhdmOffset machine.memory) root other)
    (cleared : (leafEntry hhdmOffset machine.memory root virt).getD 0#64 = 0#64 ∧
        path ≠ tablePath virt ∨ path = tablePath virt ∧ index = slot1 virt) :
    Unmapped hhdmOffset root slots virt machine
      { machine with
        memory := writeEntry machine.memory (table.pointer hhdmOffset) (index.setWidth 64)
          0#64 } := by
  have pathIn := mem_within_onPath start onPath
  have stored : tables hhdmOffset _ = _ := tables_writeEntry machine.memory table index 0#64
  refine ⟨rfl, ⟨?_, ?_⟩, ?_, ?_, ?_⟩
  · rw [stored]
    exact space.tree.congr same
  · intro other otherIn last lastReached
    rw [stored, same other otherIn] at lastReached
    exact space.apart other otherIn last lastReached
  · intro other otherStart
    have otherIn := tablePath_mem_within otherStart
    rw [leafEntry, stored, entryAt_write space.tree pathIn reached otherIn (same _ otherIn)]
    rcases cleared with ⟨unmapped, inner⟩ | ⟨rfl, rfl⟩
    · have different : ¬(tablePath other = path ∧ slot1 other = index) := by
        rintro ⟨rfl, -⟩
        exact inner (onPath.eq_of_length rfl)
      rw [if_neg different]
      by_cases samePage : pageNumber other = pageNumber virt
      · obtain ⟨samePath, sameSlot⟩ := pageNumber_eq_iff.mp samePage
        rw [if_pos samePage, samePath, sameSlot]
        exact unmapped
      · rw [if_neg samePage]
        rfl
    · by_cases samePage : pageNumber other = pageNumber virt
      · rw [if_pos samePage, if_pos (pageNumber_eq_iff.mp samePage)]
        rfl
      · rw [if_neg samePage, if_neg (fun same => samePage (pageNumber_eq_iff.mpr same))]
        rfl
  · intro other otherIn
    rw [stored, same other otherIn]
  · intro address offPath
    exact writeEntry_outside (offPath path table onPath reached)

theorem leafEntry_eq_none {memory : Memory} {virt : U64} (onPath : path <+: tablePath virt)
    (dead : follow pageFormat (tables hhdmOffset memory) root path = none) :
    leafEntry hhdmOffset memory root virt = none := by
  obtain ⟨rest, split⟩ := onPath
  rw [leafEntry, entryAt, ← split, follow_append, dead]
  rfl

/-- An absent link on the walk of `virt`, cleared. -/
theorem AddressSpace.clearAbsent {virt : U64} {table : Frame} {index : Slot}
    (space : AddressSpace hhdmOffset machine root slots) (start : slot4 virt ∈ slots)
    (onPath : path ++ [index] <+: tablePath virt)
    (reached : follow pageFormat (tables hhdmOffset machine.memory) root path = some table)
    (absent : RadixTable.next pageFormat (tables hhdmOffset machine.memory) table index = none) :
    Unmapped hhdmOffset root slots virt machine
      { machine with
        memory := writeEntry machine.memory (table.pointer hhdmOffset) (index.setWidth 64)
          0#64 } := by
  have dead : follow pageFormat (tables hhdmOffset machine.memory) root (path ++ [index]) =
      none := by
    rw [follow_snoc, reached, Option.bind_some, absent]
  have shorter : path ≠ tablePath virt := by
    rintro rfl
    have lengths := onPath.length_le
    rw [List.length_append, List.length_singleton] at lengths
    omega
  refine space.clear start ((List.prefix_append _ _).trans onPath) reached ?_ (Or.inl ⟨?_, shorter⟩)
  · intro other _
    exact follow_write_absent absent present_zero other
  · rw [leafEntry_eq_none onPath dead]
    rfl

theorem notPresent_of_next {store : Store Frame Slot U64} {table : Frame} {index : Slot}
    (absent : RadixTable.next pageFormat store table index = none) :
    notPresent (store table index) :=
  (notPresent_eq _).mpr (next_eq_none_iff.mp absent)

theorem present_of_next {store : Store Frame Slot U64} {table child : Frame} {index : Slot}
    (linked : RadixTable.next pageFormat store table index = some child) :
    ¬notPresent (store table index) := by
  rw [notPresent_eq, (next_eq_some_iff.mp linked).1]
  simp

theorem vmmUnmap_spec {virt : U64} (space : AddressSpace hhdmOffset machine root slots)
    (start : slot4 virt ∈ slots) :
    Unmapped hhdmOffset root slots virt machine
      (vmmUnmap hhdmOffset machine (root.pointer hhdmOffset) virt) := by
  have reached4 : follow pageFormat (tables hhdmOffset machine.memory) root [] = some root := rfl
  simp only [vmmUnmap, pml4Idx_eq, pml3Idx_eq, pml2Idx_eq, pml1Idx_eq]
  cases link4 : RadixTable.next pageFormat (tables hhdmOffset machine.memory) root
      (slot4 virt) with
  | none =>
      rw [readEntry_pointer, if_pos (notPresent_of_next link4)]
      exact space.clearAbsent start ⟨[slot3 virt, slot2 virt], rfl⟩ reached4 link4
  | some table3 =>
      have reached3 : follow pageFormat (tables hhdmOffset machine.memory) root [slot4 virt] =
          some table3 := by
        rw [follow_cons, link4]
        rfl
      rw [entryTable_of_follow reached4 reached3, readEntry_pointer,
        if_neg (present_of_next link4)]
      cases link3 : RadixTable.next pageFormat (tables hhdmOffset machine.memory) table3
          (slot3 virt) with
      | none =>
          rw [readEntry_pointer, if_pos (notPresent_of_next link3)]
          exact space.clearAbsent start ⟨[slot2 virt], rfl⟩ reached3 link3
      | some table2 =>
          have reached2 : follow pageFormat (tables hhdmOffset machine.memory) root
              [slot4 virt, slot3 virt] = some table2 := by
            rw [follow_cons, link4, Option.bind_some, follow_cons, link3]
            rfl
          rw [entryTable_of_follow reached3 reached2, readEntry_pointer,
            if_neg (present_of_next link3)]
          cases link2 : RadixTable.next pageFormat (tables hhdmOffset machine.memory) table2
              (slot2 virt) with
          | none =>
              rw [readEntry_pointer, if_pos (notPresent_of_next link2)]
              exact space.clearAbsent start (List.prefix_refl _) reached2 link2
          | some table1 =>
              have reached1 : follow pageFormat (tables hhdmOffset machine.memory) root
                  (tablePath virt) = some table1 := by
                rw [tablePath, follow_cons, link4, Option.bind_some, follow_cons, link3,
                  Option.bind_some, follow_cons, link2]
                rfl
              rw [entryTable_of_follow reached2 reached1, readEntry_pointer,
                if_neg (present_of_next link2)]
              refine space.clear start (List.prefix_refl _) reached1 ?_ (Or.inr ⟨rfl, rfl⟩)
              intro other otherIn
              exact follow_write_leaf space.tree (tablePath_mem_within start) reached1
                (leaf_not_mem_within slots virt (slot1 virt)) otherIn

end Nekonix
