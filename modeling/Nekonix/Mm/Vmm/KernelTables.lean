import Nekonix.Mm.Vmm.NewPagemap
import Nekonix.Mm.Vmm.Ownership

/-!
# The kernel's tables beside another pagemap

Mappings in a fresh pagemap can reach the kernel's tables through the shared
upper half.  They keep the kernel's tree a tree, and leave alone every frame
that is neither free nor one of its tables.
-/

namespace Nekonix

open FlatMemory RadixTable Transition

variable {hhdmOffset : U64} {kernel pagemap : Frame} {before machine finish : Machine}
  {mappings : List Mapping} {path : List Slot} {index : Slot} {table : Frame}

namespace NewPagemap

/-- A table that the kernel reaches after the mappings is one that the pagemap
reaches by the same path, or one that the kernel reached before. -/
theorem kernelReached (made : NewPagemap hhdmOffset kernel before pagemap machine)
    (space : AddressSpace hhdmOffset before kernel Set.univ)
    (run : MapRun hhdmOffset pagemap Set.univ machine mappings finish)
    (membership : path ∈ within (Set.univ : Set Slot))
    (reached : follow pageFormat (tables hhdmOffset finish.memory) kernel path = some table) :
    follow pageFormat (tables hhdmOffset finish.memory) pagemap path = some table ∨
      follow pageFormat (tables hhdmOffset before.memory) kernel path = some table := by
  have lower := made.lowerTables space run
  have rootEntries : tables hhdmOffset finish.memory kernel =
      tables hhdmOffset before.memory kernel := lower.tables_eq nil_mem_within rfl
  cases path with
  | nil => exact Or.inr reached
  | cons index rest =>
      by_cases upper : 256 ≤ index.toNat
      · rw [follow_cons] at reached
        cases present : pageFormat.present (tables hhdmOffset before.memory kernel index) with
        | false =>
            rw [next_eq_none_iff.mpr (by rw [rootEntries]; exact present)] at reached
            cases reached
        | true =>
            have entry : tables hhdmOffset machine.memory pagemap index =
                tables hhdmOffset before.memory kernel index := by
              rw [made.entries, if_pos upper]
            have linked : linkEntry hhdmOffset machine.memory pagemap [] index =
                some (tables hhdmOffset before.memory kernel index) := by
              rw [linkEntry, link_of_follow rfl, entry, if_pos present]
            have kept := run.linkKept ⟨by simp, by simp⟩ linked
            rw [linkEntry, link_eq_some_iff] at kept
            have shared : tables hhdmOffset finish.memory pagemap index =
                tables hhdmOffset finish.memory kernel index := by
              rw [rootEntries]
              exact Option.some.inj kept.1
            left
            rw [follow_cons]
            simp only [RadixTable.next, shared]
            exact reached
      · right
        have inLower : index :: rest ∈ within lowerHalf := by
          refine ⟨membership.1, ?_⟩
          intro first isFirst
          cases isFirst
          exact Nat.lt_of_not_le upper
        rw [← lower.follow inLower]
        exact reached

/-- What the pagemap reaches after the mappings it took in them, or the kernel
reached before. -/
theorem pagemapOrigin (made : NewPagemap hhdmOffset kernel before pagemap machine)
    (space : AddressSpace hhdmOffset before kernel Set.univ)
    (run : MapRun hhdmOffset pagemap Set.univ machine mappings finish)
    (membership : path ∈ within (Set.univ : Set Slot))
    (reached : follow pageFormat (tables hhdmOffset finish.memory) pagemap path = some table) :
    table.address ∈ before.free ∨
      follow pageFormat (tables hhdmOffset before.memory) kernel path = some table := by
  rcases run.origin membership reached with early | taken
  · cases path with
    | nil =>
        cases early
        left
        rw [made.free]
        simp
    | cons index rest =>
        rw [made.follow_pagemap space membership] at early
        split_ifs at early
        exact Or.inr early
  · left
    rw [made.free, run.free]
    simp only [List.mem_append, List.mem_map, List.mem_reverse]
    exact Or.inl (Or.inr ⟨table, taken, rfl⟩)

/-- The kernel's address space after the mappings. -/
theorem kernelSpace_finish (made : NewPagemap hhdmOffset kernel before pagemap machine)
    (usable : before.stack.Usable) (space : AddressSpace hhdmOffset before kernel Set.univ)
    (run : MapRun hhdmOffset pagemap Set.univ machine mappings finish) :
    AddressSpace hhdmOffset finish kernel Set.univ := by
  have pagemapSpace := run.space (made.space usable space)
  have stillFree : ∀ page ∈ finish.free, page ∈ before.free := by
    intro page free
    rw [made.free, run.free]
    exact List.mem_append_left _ (List.mem_append_left _ free)
  -- A table reached by two paths is not once the pagemap's and once the kernel's old one.
  have mixed : ∀ first second table, first ∈ within (Set.univ : Set Slot) →
      second ∈ within (Set.univ : Set Slot) →
      follow pageFormat (tables hhdmOffset finish.memory) pagemap first = some table →
      follow pageFormat (tables hhdmOffset before.memory) kernel second = some table →
      first = second := by
    intro first second table firstIn secondIn firstReached secondReached
    rcases made.pagemapOrigin space run firstIn firstReached with free | old
    · exact absurd free (space.apart second secondIn table secondReached)
    · exact space.tree first second table firstIn secondIn old secondReached
  constructor
  · intro first second table firstIn secondIn firstReached secondReached
    rcases made.kernelReached space run firstIn firstReached with firstNew | firstOld
    · rcases made.kernelReached space run secondIn secondReached with secondNew | secondOld
      · exact pagemapSpace.tree first second table firstIn secondIn firstNew secondNew
      · exact mixed first second table firstIn secondIn firstNew secondOld
    · rcases made.kernelReached space run secondIn secondReached with secondNew | secondOld
      · exact (mixed second first table secondIn firstIn secondNew firstOld).symm
      · exact space.tree first second table firstIn secondIn firstOld secondOld
  · intro path membership table reached
    rcases made.kernelReached space run membership reached with new | old
    · exact pagemapSpace.apart path membership table new
    · exact fun free => space.apart path membership table old (stillFree _ free)

end NewPagemap

namespace NewPagemap

variable {frame : Frame}

/-- Neither the making of the pagemap nor mappings in it disturb a frame in use. -/
theorem inUse_finish (made : NewPagemap hhdmOffset kernel before pagemap machine)
    (space : AddressSpace hhdmOffset before kernel Set.univ)
    (run : MapRun hhdmOffset pagemap Set.univ machine mappings finish)
    (inUse : InUse hhdmOffset kernel before frame) :
    InUse hhdmOffset kernel finish frame ∧
      SameFrame hhdmOffset before.memory finish.memory frame := by
  have stillFree : ∀ page ∈ finish.free, page ∈ before.free := by
    intro page free
    rw [made.free, run.free]
    exact List.mem_append_left _ (List.mem_append_left _ free)
  have notReached : ∀ path ∈ within (Set.univ : Set Slot),
      follow pageFormat (tables hhdmOffset finish.memory) pagemap path ≠ some frame := by
    intro path membership reached
    rcases made.pagemapOrigin space run membership reached with free | old
    · exact inUse.notFree free
    · exact inUse.notTable path membership old
  refine ⟨⟨fun free => inUse.notFree (stillFree _ free), ?_⟩, ?_⟩
  · intro path membership reached
    rcases made.kernelReached space run membership reached with new | old
    · exact notReached path membership new
    · exact inUse.notTable path membership old
  · intro address inFrame
    have notPagemap : ¬pagemap.Holds hhdmOffset address := by
      intro inPagemap
      apply inUse.notFree
      rw [inFrame.unique inPagemap, made.free]
      simp
    rw [← made.outside address notPagemap]
    apply run.outside
    · intro taken membership inTaken
      apply inUse.notFree
      rw [inFrame.unique inTaken, made.free, run.free]
      simp only [List.mem_append, List.mem_map, List.mem_reverse]
      exact Or.inl (Or.inr ⟨taken, membership, rfl⟩)
    · intro path membership table reached inTable
      obtain rfl := inFrame.unique inTable
      exact notReached path membership (run.kept membership reached)

end NewPagemap

end Nekonix
