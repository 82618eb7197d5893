import Nekonix.Mm.Vmm.Cleared
import Nekonix.Mm.Vmm.Mapping

/-!
# `vmm_map` without enough frames

`vmm_map` does not test what `pmm_request_page` returns.  When the frames run out
on the way down, it links page 0 as a table and goes on through it.
-/

namespace Nekonix

open FlatMemory RadixTable

variable {hhdmOffset flags : U64} {machine next : Machine} {root : Frame} {path : List Slot}
  {created : List Frame} {virt phys : U64}

/-- Every table below the root is one that was there at its place, or one that was
taken from the free stack for a place that was empty; none is page 0; and the other
pages keep their translations. -/
structure KeepsTables (hhdmOffset : U64) (root : Frame) (virt : U64) (machine next : Machine) :
    Prop where
  tree : IsTree pageFormat (tables hhdmOffset next.memory) root (within Set.univ)
  nonzero : ∀ path ∈ within Set.univ, ∀ table,
    follow pageFormat (tables hhdmOffset next.memory) root path = some table → table ≠ 0#40
  origin : ∀ path ∈ within Set.univ, ∀ table,
    follow pageFormat (tables hhdmOffset next.memory) root path = some table →
    follow pageFormat (tables hhdmOffset machine.memory) root path = some table ∨
      (follow pageFormat (tables hhdmOffset machine.memory) root path = none ∧
        table.address ∈ machine.free ∧ table.address ∉ next.free)
  others : ∀ other, pageNumber other ≠ pageNumber virt →
    virtToPhys hhdmOffset next.memory (root.pointer hhdmOffset) other =
      virtToPhys hhdmOffset machine.memory (root.pointer hhdmOffset) other

/-- A page table whose frames are in use, none of them page 0. -/
structure WellFormedTable (hhdmOffset : U64) (machine : Machine) (root : Frame) : Prop where
  space : AddressSpace hhdmOffset machine root Set.univ
  nonzero : ∀ path ∈ within Set.univ, ∀ table,
    follow pageFormat (tables hhdmOffset machine.memory) root path = some table → table ≠ 0#40

/-! With enough frames -/

theorem Mapped.keepsTables {entry : U64} {taken : List Frame}
    (mapped : Mapped hhdmOffset root Set.univ virt flags entry taken machine next)
    (usable : machine.stack.Usable) (formed : WellFormedTable hhdmOffset machine root) :
    KeepsTables hhdmOffset root virt machine next := by
  have takenFree : ∀ frame ∈ taken, frame.address ∈ machine.free ∧ frame.address ∉ next.free := by
    intro frame membership
    have inTaken : frame.address ∈ taken.reverse.map Frame.address :=
      List.mem_map_of_mem (List.mem_reverse.mpr membership)
    constructor
    · rw [mapped.free]
      exact List.mem_append_right _ inTaken
    · intro stillFree
      have nodup := usable.nodup
      change machine.free.Nodup at nodup
      rw [mapped.free] at nodup
      exact (List.nodup_append.mp nodup).2.2 _ stillFree _ inTaken rfl
  refine
    { tree := mapped.space.tree
      nonzero := ?nonzero
      origin := ?origin
      others := ?others }
  case nonzero =>
    intro path membership table reached
    rcases mapped.origin path membership table reached with before | new
    · exact formed.nonzero path membership table before
    · obtain ⟨frame, nonzero, same⟩ := usable.frame _ (takenFree table new).1
      rw [Frame.address_inj.mp same]
      exact nonzero
  case origin =>
    intro path membership table reached
    rcases mapped.origin path membership table reached with before | new
    · exact Or.inl before
    · cases earlier : follow pageFormat (tables hhdmOffset machine.memory) root path with
      | none => exact Or.inr ⟨rfl, takenFree table new⟩
      | some other =>
          have kept := mapped.kept path membership other earlier
          rw [reached] at kept
          exact Or.inl kept.symm
  case others =>
    intro other different
    have leaf := mapped.leaf other trivial
    rw [if_neg different] at leaf
    rw [virtToPhys_eq, virtToPhys_eq, leaf]

/-! What is present stays present -/

/-- Present entries are replaced by present entries only. -/
def KeepsPresent (hhdmOffset : U64) (memory other : Memory) : Prop :=
  ∀ frame index, pageFormat.present (tables hhdmOffset memory frame index) = true →
    pageFormat.present (tables hhdmOffset other frame index) = true

theorem KeepsPresent.refl (memory : Memory) : KeepsPresent hhdmOffset memory memory :=
  fun _ _ present => present

theorem KeepsPresent.trans {memory middle other : Memory}
    (first : KeepsPresent hhdmOffset memory middle)
    (second : KeepsPresent hhdmOffset middle other) : KeepsPresent hhdmOffset memory other :=
  fun frame index present => second frame index (first frame index present)

theorem KeepsPresent.write {entry : U64} (memory : Memory) (table : Frame) (index : Slot)
    (present : pageFormat.present entry = true) :
    KeepsPresent hhdmOffset memory
      (writeEntry memory (table.pointer hhdmOffset) (index.setWidth 64) entry) := by
  intro frame position wasPresent
  rw [tables_writeEntry]
  by_cases here : frame = table ∧ position = index
  · obtain ⟨rfl, rfl⟩ := here
    rw [write_same]
    exact present
  · rw [write_other here]
    exact wasPresent

/-- A level of `vmm_map` without a free frame. -/
theorem requestTable_exhausted (valid : EntryFlags flags) (empty : machine.free = [])
    (table : Frame) (index : Slot) :
    let result := requestTable hhdmOffset machine (table.pointer hhdmOffset) (index.setWidth 64) flags
    KeepsPresent hhdmOffset machine.memory result.memory ∧ result.free = [] ∧
      pageFormat.present (tables hhdmOffset result.memory table index) = true := by
  cases linked : RadixTable.next pageFormat (tables hhdmOffset machine.memory) table index with
  | some child =>
      rw [requestTable_present linked]
      exact ⟨.refl _, empty, (next_eq_some_iff.mp linked).1⟩
  | none =>
      rw [requestTable_absent linked, pmmRequestPage_empty empty]
      refine ⟨.write _ _ _ (valid.entryPresent _), empty, ?_⟩
      dsimp only
      rw [tables_writeEntry, write_same]
      exact valid.entryPresent _

/-! The levels of `vmm_map` one by one -/

/-- The end of `vmm_map`, from the table of the lowest level on. -/
def mapLeaf (machine : Machine) (pml1Table virt phys flags : U64) : Machine :=
  { machine with memory := writeEntry machine.memory pml1Table (pml1Idx virt) (phys ||| flags) }

/-- From the table above it on. -/
def mapFrom2 (hhdmOffset : U64) (machine : Machine) (pml2Table virt phys flags : U64) : Machine :=
  let machine := requestTable hhdmOffset machine pml2Table (pml2Idx virt) flags
  mapLeaf machine (entryTable hhdmOffset (readEntry machine.memory pml2Table (pml2Idx virt)))
    virt phys flags

def mapFrom3 (hhdmOffset : U64) (machine : Machine) (pml3Table virt phys flags : U64) : Machine :=
  let machine := requestTable hhdmOffset machine pml3Table (pml3Idx virt) flags
  mapFrom2 hhdmOffset machine
    (entryTable hhdmOffset (readEntry machine.memory pml3Table (pml3Idx virt))) virt phys flags

theorem vmmMap_eq (hhdmOffset : U64) (machine : Machine) (pagemap virt phys flags : U64) :
    vmmMap hhdmOffset machine pagemap virt phys flags =
      let machine := requestTable hhdmOffset machine pagemap (pml4Idx virt) flags
      mapFrom3 hhdmOffset machine
        (entryTable hhdmOffset (readEntry machine.memory pagemap (pml4Idx virt))) virt phys
        flags := rfl

theorem mapLeaf_keepsPresent (valid : EntryFlags flags) (machine : Machine) (table : Frame)
    (virt phys : U64) :
    KeepsPresent hhdmOffset machine.memory
        (mapLeaf machine (table.pointer hhdmOffset) virt phys flags).memory ∧
      (mapLeaf machine (table.pointer hhdmOffset) virt phys flags).free = machine.free := by
  refine ⟨?_, rfl⟩
  unfold mapLeaf
  rw [pml1Idx_eq]
  exact .write _ _ _ (valid.entryPresent _)

theorem mapFrom2_exhausted (valid : EntryFlags flags) (empty : machine.free = []) (table : Frame)
    (virt phys : U64) :
    KeepsPresent hhdmOffset machine.memory
        (mapFrom2 hhdmOffset machine (table.pointer hhdmOffset) virt phys flags).memory ∧
      (mapFrom2 hhdmOffset machine (table.pointer hhdmOffset) virt phys flags).free = [] := by
  obtain ⟨kept, stillEmpty, -⟩ :=
    @requestTable_exhausted hhdmOffset _ _ valid empty table (slot2 virt)
  unfold mapFrom2
  rw [pml2Idx_eq]
  dsimp only
  rw [entryTable_eq]
  obtain ⟨leafKept, leafFree⟩ := @mapLeaf_keepsPresent hhdmOffset _ valid
    (requestTable hhdmOffset machine (table.pointer hhdmOffset) ((slot2 virt).setWidth 64) flags)
    _ virt phys
  exact ⟨kept.trans leafKept, leafFree.trans stillEmpty⟩

theorem mapFrom3_exhausted (valid : EntryFlags flags) (empty : machine.free = []) (table : Frame)
    (virt phys : U64) :
    KeepsPresent hhdmOffset machine.memory
        (mapFrom3 hhdmOffset machine (table.pointer hhdmOffset) virt phys flags).memory ∧
      (mapFrom3 hhdmOffset machine (table.pointer hhdmOffset) virt phys flags).free = [] := by
  obtain ⟨kept, stillEmpty, -⟩ :=
    @requestTable_exhausted hhdmOffset _ _ valid empty table (slot3 virt)
  unfold mapFrom3
  rw [pml3Idx_eq]
  dsimp only
  rw [entryTable_eq]
  obtain ⟨lowerKept, lowerEmpty⟩ := @mapFrom2_exhausted hhdmOffset _ _ valid stillEmpty _ virt phys
  exact ⟨kept.trans lowerKept, lowerEmpty⟩

/-! Where the frames run out -/

/-- The frames suffice for `path` and not for the level below. -/
theorem Extended.runsOut {slots : Set Slot} {table : Frame} {index : Slot}
    (extended : Extended hhdmOffset root slots flags path created machine next)
    (membership : path ++ [index] ∈ within slots)
    (reached : follow pageFormat (tables hhdmOffset next.memory) root path = some table)
    (enough : missing pageFormat (tables hhdmOffset machine.memory) root path ≤
      machine.free.length)
    (few : machine.free.length <
      missing pageFormat (tables hhdmOffset machine.memory) root (path ++ [index])) :
    next.free = [] ∧
      follow pageFormat (tables hhdmOffset machine.memory) root (path ++ [index]) = none ∧
      RadixTable.next pageFormat (tables hhdmOffset next.memory) table index = none := by
  have count := extended.growth.count
  have lengths := congrArg List.length extended.free
  rw [List.length_append, List.length_map, List.length_reverse] at lengths
  rw [missing_snoc] at few
  have unlinked : follow pageFormat (tables hhdmOffset machine.memory) root (path ++ [index]) =
      none := by
    by_contra linked
    rw [if_neg linked] at few
    omega
  rw [if_pos unlinked] at few
  refine ⟨List.eq_nil_of_length_eq_zero (by omega), unlinked, ?_⟩
  exact (extended.growth.absent_iff membership reached).mpr (link_eq_none_iff.mpr unlinked)

/-- The tables created on the way are not page 0 either. -/
theorem Extended.nonzero
    (extended : Extended hhdmOffset root Set.univ flags path created machine next)
    (usable : machine.stack.Usable) (formed : WellFormedTable hhdmOffset machine root) :
    ∀ path ∈ within Set.univ, ∀ table,
      follow pageFormat (tables hhdmOffset next.memory) root path = some table →
      table ≠ 0#40 := by
  intro path membership table reached
  rcases extended.growth.origin path membership table reached with before | new
  · exact formed.nonzero path membership table before
  · have free : table.address ∈ machine.free := by
      rw [extended.free]
      exact List.mem_append_right _ (List.mem_map_of_mem (List.mem_reverse.mpr new))
    obtain ⟨frame, nonzero, same⟩ := usable.frame _ free
    rw [Frame.address_inj.mp same]
    exact nonzero

theorem follow_of_present {memory : Memory} {table : Frame} {index : Slot}
    (reached : follow pageFormat (tables hhdmOffset memory) root path = some table)
    (present : pageFormat.present (tables hhdmOffset memory table index) = true) :
    ∃ child, follow pageFormat (tables hhdmOffset memory) root (path ++ [index]) = some child :=
  ⟨_, by rw [follow_snoc, reached, Option.bind_some, next_eq_some_iff.mpr ⟨present, rfl⟩]⟩

theorem present_of_follow {memory : Memory} {table child : Frame} {index : Slot}
    (reached : follow pageFormat (tables hhdmOffset memory) root path = some table)
    (further : follow pageFormat (tables hhdmOffset memory) root (path ++ [index]) = some child) :
    pageFormat.present (tables hhdmOffset memory table index) = true := by
  rw [follow_snoc, reached, Option.bind_some, next_eq_some_iff] at further
  exact further.1

/-- A place that was empty can only get a frame that was free. -/
theorem KeepsTables.taken {memory : Memory} {table : Frame} {index : Slot}
    (keeps : KeepsTables hhdmOffset root virt machine next) (isMemory : next.memory = memory)
    (membership : path ++ [index] ∈ within Set.univ)
    (reached : follow pageFormat (tables hhdmOffset memory) root path = some table)
    (present : pageFormat.present (tables hhdmOffset memory table index) = true)
    (unlinked : follow pageFormat (tables hhdmOffset machine.memory) root (path ++ [index]) =
      none) :
    ∃ child, follow pageFormat (tables hhdmOffset memory) root (path ++ [index]) = some child ∧
      child.address ∈ machine.free := by
  subst isMemory
  obtain ⟨child, further⟩ := follow_of_present reached present
  refine ⟨child, further, ?_⟩
  rcases keeps.origin _ membership child further with before | ⟨-, free, -⟩
  · rw [unlinked] at before
    cases before
  · exact free

variable {final : Machine}

/-- Not even one frame: the top-level entry leads to a frame that was not free. -/
theorem not_keepsTables_top (empty : machine.free = [])
    (present : pageFormat.present (tables hhdmOffset final.memory root (slot4 virt)) = true)
    (unlinked : follow pageFormat (tables hhdmOffset machine.memory) root [slot4 virt] = none) :
    ¬KeepsTables hhdmOffset root virt machine final := by
  intro keeps
  have membership : [] ++ [slot4 virt] ∈ within Set.univ := by
    simp [mem_within]
  obtain ⟨child, -, free⟩ := keeps.taken rfl membership rfl present unlinked
  rw [empty] at free
  cases free

/-- No frame for the second level: its entry leads to no frame that was free, or to the
table it is in. -/
theorem not_keepsTables_second {table : Frame}
    (extended : Extended hhdmOffset root Set.univ flags [slot4 virt] created machine next)
    (reached : follow pageFormat (tables hhdmOffset next.memory) root [slot4 virt] = some table)
    (empty : next.free = [])
    (unlinked : follow pageFormat (tables hhdmOffset machine.memory) root
      [slot4 virt, slot3 virt] = none)
    (kept : KeepsPresent hhdmOffset next.memory final.memory)
    (present : pageFormat.present (tables hhdmOffset final.memory table (slot3 virt)) = true) :
    ¬KeepsTables hhdmOffset root virt machine final := by
  intro keeps
  have firstIn : [slot4 virt] ∈ within Set.univ := by simp [mem_within]
  have secondIn : [slot4 virt] ++ [slot3 virt] ∈ within Set.univ := by simp [mem_within]
  have free := extended.free
  rw [empty, List.nil_append] at free
  have inCreated : ∀ frame : Frame, frame.address ∈ machine.free → frame ∈ created := by
    intro frame membership
    rw [free, List.mem_map] at membership
    obtain ⟨other, isCreated, same⟩ := membership
    rw [← Frame.address_inj.mp same]
    exact List.mem_reverse.mp isCreated
  -- a table was created for the first level exactly if there was none
  have count := extended.growth.count
  have single := @missing_snoc _ _ _ pageFormat (tables hhdmOffset machine.memory) root []
    (slot4 virt)
  rw [List.nil_append, missing, Nat.zero_add] at single
  rw [single] at count
  have same : ∀ frame ∈ created, frame = table := by
    intro frame isCreated
    rcases extended.growth.origin _ firstIn table reached with before | tableCreated
    · rw [before, if_neg (by simp)] at count
      rw [List.eq_nil_of_length_eq_zero count] at isCreated
      cases isCreated
    · cases created with
      | nil => cases isCreated
      | cons only rest =>
          have none : rest = [] := by
            apply List.eq_nil_of_length_eq_zero
            rw [List.length_cons] at count
            split at count <;> omega
          rw [none, List.mem_singleton] at isCreated tableCreated
          rw [isCreated, tableCreated]
  have topPresent := kept root (slot4 virt)
    (@present_of_follow hhdmOffset root [] _ _ _ _ rfl reached)
  -- the first level still leads to the same table
  have first : follow pageFormat (tables hhdmOffset final.memory) root [slot4 virt] =
      some table := by
    obtain ⟨other, otherReached⟩ := @follow_of_present hhdmOffset root [] _ _ _ rfl topPresent
    rw [List.nil_append] at otherReached
    rcases keeps.origin _ firstIn other otherReached with before | ⟨-, free, -⟩
    · have still := extended.growth.kept _ firstIn other before
      rw [reached] at still
      rw [otherReached, ← Option.some.inj still]
    · rw [otherReached, same other (inCreated other free)]
  obtain ⟨child, further, childFree⟩ := keeps.taken rfl secondIn first present unlinked
  rw [same child (inCreated child childFree)] at further
  have paths := keeps.tree _ _ table firstIn secondIn first further
  simp at paths

/-- No frame for the third level: its entry leads to page 0. -/
theorem not_keepsTables_third {table : Frame} {entry : U64}
    (extended : Extended hhdmOffset root Set.univ flags [slot4 virt, slot3 virt] created machine
      next)
    (nonzero : ∀ path ∈ within Set.univ, ∀ table,
      follow pageFormat (tables hhdmOffset next.memory) root path = some table → table ≠ 0#40)
    (reached : follow pageFormat (tables hhdmOffset next.memory) root [slot4 virt, slot3 virt] =
      some table)
    (valid : EntryFlags flags)
    (stored : tables hhdmOffset final.memory =
      write (write (tables hhdmOffset next.memory) table (slot2 virt) (0#64 ||| flags)) 0#40
        (slot1 virt) entry) :
    ¬KeepsTables hhdmOffset root virt machine final := by
  intro keeps
  have thirdIn : [slot4 virt, slot3 virt, slot2 virt] ∈ within Set.univ := by simp [mem_within]
  have secondIn : [slot4 virt, slot3 virt] ∈ within Set.univ := by simp [mem_within]
  have firstIn : [slot4 virt] ∈ within Set.univ := by simp [mem_within]
  obtain ⟨middle, toMiddle, toTable⟩ : ∃ middle,
      RadixTable.next pageFormat (tables hhdmOffset next.memory) root (slot4 virt) = some middle ∧
      RadixTable.next pageFormat (tables hhdmOffset next.memory) middle (slot3 virt) =
        some table := by
    rw [follow_cons, Option.bind_eq_some_iff] at reached
    obtain ⟨middle, toMiddle, rest⟩ := reached
    rw [follow_cons, Option.bind_eq_some_iff] at rest
    obtain ⟨last, toLast, isTable⟩ := rest
    obtain rfl := Option.some.inj isTable
    exact ⟨middle, toMiddle, toLast⟩
  have middleReached : follow pageFormat (tables hhdmOffset next.memory) root [slot4 virt] =
      some middle := by
    rw [follow_cons, toMiddle]
    rfl
  have tree := extended.growth.tree
  have rootOther : root ≠ table := by
    rintro rfl
    have paths := tree [] _ root nil_mem_within secondIn rfl reached
    cases paths
  have middleOther : middle ≠ table := by
    rintro rfl
    have paths := tree _ _ middle firstIn secondIn middleReached reached
    simp at paths
  -- the tables on the way are not page 0, and only the last entry is new
  have rootSame : RadixTable.next pageFormat (tables hhdmOffset final.memory) root (slot4 virt) =
      some middle := by
    rw [stored, RadixTable.next, write_other fun here => nonzero [] nil_mem_within root rfl here.1,
      write_other fun here => rootOther here.1]
    exact toMiddle
  have middleSame :
      RadixTable.next pageFormat (tables hhdmOffset final.memory) middle (slot3 virt) =
        some table := by
    rw [stored, RadixTable.next,
      write_other fun here => nonzero _ firstIn middle middleReached here.1,
      write_other fun here => middleOther here.1]
    exact toTable
  have atEnd : RadixTable.next pageFormat (tables hhdmOffset final.memory) table (slot2 virt) =
      some 0#40 := by
    rw [stored, RadixTable.next, write_other fun here => nonzero _ secondIn table reached here.1,
      write_same, if_pos (valid.entryPresent _)]
    exact congrArg some (valid.target 0#40)
  apply keeps.nonzero _ thirdIn 0#40
  · simp only [follow_cons, follow_nil, rootSame, middleSame, atEnd, Option.bind_some]
  · rfl

/-- Without enough frames `vmm_map` does not keep the tables. -/
theorem vmmMap_exhausted (usable : machine.stack.Usable)
    (formed : WellFormedTable hhdmOffset machine root) (valid : EntryFlags flags)
    (few : machine.free.length <
      missingTables hhdmOffset machine.memory (root.pointer hhdmOffset) virt) :
    ¬KeepsTables hhdmOffset root virt machine
      (vmmMap hhdmOffset machine (root.pointer hhdmOffset) virt phys flags) := by
  rw [missingTables_eq] at few
  have pathIn : [slot4 virt, slot3 virt] ++ [slot2 virt] ∈ within Set.univ := by
    simp [mem_within]
  have pathIn3 : [slot4 virt] ++ [slot3 virt] ∈ within Set.univ := by simp [mem_within]
  have pathIn4 : [] ++ [slot4 virt] ∈ within Set.univ := by simp [mem_within]
  have nothing : Extended hhdmOffset root Set.univ flags [] [] machine machine :=
    Extended.refl formed.space
  rw [vmmMap_eq, pml4Idx_eq]
  dsimp only
  by_cases enough4 : missing pageFormat (tables hhdmOffset machine.memory) root [slot4 virt] ≤
      machine.free.length
  · obtain ⟨created4, table3, extended4, reached3, pointer3⟩ :=
      nothing.requestTable usable formed.space valid rfl pathIn4 enough4
    rw [pointer3, mapFrom3, pml3Idx_eq]
    by_cases enough3 : missing pageFormat (tables hhdmOffset machine.memory) root
        [slot4 virt, slot3 virt] ≤ machine.free.length
    · obtain ⟨created3, table2, extended3, reached2, pointer2⟩ :=
        extended4.requestTable usable formed.space valid reached3 pathIn3 enough3
      rw [pointer2, mapFrom2, pml2Idx_eq]
      generalize requestTable hhdmOffset _ (table3.pointer hhdmOffset) ((slot3 virt).setWidth 64)
        flags = middle at extended3 reached2 pointer2 ⊢
      obtain ⟨empty, -, absent⟩ := extended3.runsOut pathIn reached2 enough3 few
      refine @not_keepsTables_third _ _ _ _ _ _ _ _ _ (phys ||| flags) extended3
        (extended3.nonzero usable formed) reached2 valid ?_
      rw [requestTable_absent absent, pmmRequestPage_empty empty, mapLeaf, pml1Idx_eq]
      dsimp only
      rw [entryTable_eq, readEntry_pointer]
      simp only [tables_writeEntry, write_same]
      have isZero : pageFormat.target (0#64 ||| flags) = 0#40 := valid.target 0#40
      rw [isZero]
    · obtain ⟨empty, unlinked, -⟩ := extended4.runsOut pathIn3 reached3 enough4
        (Nat.lt_of_not_le enough3)
      obtain ⟨kept, stillEmpty, present⟩ :=
        @requestTable_exhausted hhdmOffset _ _ valid empty table3 (slot3 virt)
      rw [entryTable_eq]
      obtain ⟨lowerKept, -⟩ := @mapFrom2_exhausted hhdmOffset _ _ valid stillEmpty
        (pageFormat.target (readEntry (requestTable hhdmOffset
          (requestTable hhdmOffset machine (root.pointer hhdmOffset) ((slot4 virt).setWidth 64)
            flags) (table3.pointer hhdmOffset) ((slot3 virt).setWidth 64) flags).memory
          (table3.pointer hhdmOffset) ((slot3 virt).setWidth 64))) virt phys
      exact not_keepsTables_second extended4 reached3 empty unlinked (kept.trans lowerKept)
        (lowerKept _ _ present)
  · -- no frame at all
    obtain ⟨empty, unlinked, -⟩ := nothing.runsOut pathIn4 rfl (Nat.zero_le _)
      (Nat.lt_of_not_le enough4)
    obtain ⟨-, stillEmpty, present⟩ :=
      @requestTable_exhausted hhdmOffset _ _ valid empty root (slot4 virt)
    rw [entryTable_eq]
    obtain ⟨kept, -⟩ := @mapFrom3_exhausted hhdmOffset _ _ valid stillEmpty
      (pageFormat.target (readEntry (requestTable hhdmOffset machine (root.pointer hhdmOffset)
        ((slot4 virt).setWidth 64) flags).memory (root.pointer hhdmOffset)
        ((slot4 virt).setWidth 64))) virt phys
    exact not_keepsTables_top empty (kept _ _ present) unlinked

/-- `vmm_map` keeps the tables exactly where there is a free frame for every table that
the walk lacks. -/
theorem vmmMap_keepsTables_iff (virt phys : U64) (usable : machine.stack.Usable)
    (formed : WellFormedTable hhdmOffset machine root) (valid : EntryFlags flags) :
    KeepsTables hhdmOffset root virt machine
        (vmmMap hhdmOffset machine (root.pointer hhdmOffset) virt phys flags) ↔
      missingTables hhdmOffset machine.memory (root.pointer hhdmOffset) virt ≤
        machine.free.length := by
  constructor
  · intro keeps
    by_contra few
    exact vmmMap_exhausted usable formed valid (Nat.lt_of_not_le few) keeps
  · intro available
    obtain ⟨created, -, mapped⟩ :=
      vmmMap_spec virt phys usable formed.space (Set.mem_univ _) valid available
    exact mapped.keepsTables usable formed

/-! A cleared table -/

theorem Machine.wellFormed_cleared {count : Nat} (small : count < 2 ^ 39) :
    WellFormedTable hhdmOffset (Machine.cleared count) 1#40 where
  space := Machine.addressSpace_cleared small
  nonzero := by
    intro path membership table reached
    rw [(reached_of_cleared (fun index _ => tables_cleared count 1#40 index) membership reached).2]
    decide

theorem entryFlags_present : EntryFlags vmmPresent := ⟨by decide, by decide⟩

theorem vmmMap_keepsTables_iff_cleared :
    KeepsTables 0#64 1#40 0x400000#64 (Machine.cleared 3)
      (vmmMap 0#64 (Machine.cleared 3) (Frame.pointer 0#64 1#40) 0x400000#64 0x5000#64
        vmmPresent) := by
  refine (vmmMap_keepsTables_iff 0x400000#64 0x5000#64 (Machine.usable_cleared (by decide))
    (Machine.wellFormed_cleared (by decide)) entryFlags_present).mpr ?_
  rw [Machine.length_free_cleared (by decide)]
  exact missingTables_le _ _ _ _

/-- Without a free frame the first mapping links page 0 as a table. -/
theorem vmmMap_links_page_zero : ¬∀ (hhdmOffset : U64) (machine : Machine) (root : Frame)
    (virt phys flags : U64), machine.stack.Usable → WellFormedTable hhdmOffset machine root →
    EntryFlags flags →
    KeepsTables hhdmOffset root virt machine
      (vmmMap hhdmOffset machine (root.pointer hhdmOffset) virt phys flags) := by
  intro keeps
  have usable := @Machine.usable_cleared 0 (by decide)
  have formed := @Machine.wellFormed_cleared 0#64 0 (by decide)
  refine vmmMap_exhausted usable formed entryFlags_present ?_
    (keeps 0#64 (Machine.cleared 0) 1#40 0x400000#64 0x5000#64 vmmPresent usable formed
      entryFlags_present)
  decide

end Nekonix
