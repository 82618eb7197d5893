import Nekonix.Mm.Vmm.Ownership

/-!
# Mappings without the present flag

With flags that leave out `VMM_PRESENT` each table that `vmm_map` requests is
linked by an entry that is not present.  The walk goes on in the new table, which
the address space does not reach, so a leaf is set only where its tables exist.
-/

namespace Nekonix

open FlatMemory RadixTable

variable {hhdmOffset flags : U64} {root table : Frame} {start machine next : Machine}
  {path : List Slot} {taken : List Frame} {index : Slot}

/-- Flags that leave the address bits of an entry alone. -/
def NoAddress (flags : U64) : Prop := flags &&& entryMask = 0#64

theorem NoAddress.masked (valid : NoAddress flags) (frame : Frame) :
    (frame.address ||| flags) &&& entryMask = frame.address := by
  rw [BitVec.and_comm, BitVec.and_or_distrib_left, BitVec.and_comm, frame.address_masked,
    BitVec.and_comm, valid, BitVec.or_zero]

/-- The entry of a frame is present if the flags say so. -/
theorem present_address_or (frame : Frame) (flags : U64) :
    pageFormat.present (frame.address ||| flags) = flags.getLsbD 0 := by
  have low : frame.address.getLsbD 0 = false := by
    simp [Frame.address]
  change (frame.address ||| flags).getLsbD 0 = flags.getLsbD 0
  rw [BitVec.getLsbD_or, low, Bool.false_or]

/-- Where the walk stands: in a table that is reached, or in a cleared one, taken on
the way, that is not. -/
inductive WalkAt (hhdmOffset : U64) (root : Frame) (machine : Machine) (path : List Slot)
    (taken : List Frame) (table : Frame) : Prop
  | reached (follows : follow pageFormat (tables hhdmOffset machine.memory) root path = some table)
  | apart (unlinked : follow pageFormat (tables hhdmOffset machine.memory) root path = none)
      (cleared : ∀ index, tables hhdmOffset machine.memory table index = 0#64)
      (inUse : InUse hhdmOffset root machine table) (isTaken : table ∈ taken)

/-- No table is reached by another path than before, and no leaf has changed. -/
structure SameTree (hhdmOffset : U64) (root : Frame) (memory other : Memory) : Prop where
  follow : ∀ path ∈ within (Set.univ : Set Slot),
    follow pageFormat (tables hhdmOffset other) root path =
      RadixTable.follow pageFormat (tables hhdmOffset memory) root path
  leaf : ∀ virt, leafEntry hhdmOffset other root virt = leafEntry hhdmOffset memory root virt

theorem SameTree.of_sameTables {memory other : Memory}
    (same : SameTables hhdmOffset root Set.univ memory other) :
    SameTree hhdmOffset root memory other :=
  ⟨fun _ membership => same.follow membership, fun _ => same.leafEntry (Set.mem_univ _)⟩

theorem SameTree.trans {memory middle other : Memory}
    (first : SameTree hhdmOffset root memory middle)
    (second : SameTree hhdmOffset root middle other) : SameTree hhdmOffset root memory other :=
  ⟨fun path membership => (second.follow path membership).trans (first.follow path membership),
    fun virt => (second.leaf virt).trans (first.leaf virt)⟩

/-- The state on the way of a mapping without the present flag. -/
structure Unlinked (hhdmOffset : U64) (root : Frame) (path : List Slot) (taken : List Frame)
    (table : Frame) (start machine : Machine) : Prop where
  touched : Touched hhdmOffset root taken start machine
  tree : SameTree hhdmOffset root start.memory machine.memory
  count : taken.length = missing pageFormat (tables hhdmOffset start.memory) root path
  walk : WalkAt hhdmOffset root machine path taken table

theorem Unlinked.refl (space : AddressSpace hhdmOffset start root Set.univ) :
    Unlinked hhdmOffset root [] [] root start start :=
  ⟨.refl space, ⟨fun _ _ => rfl, fun _ => rfl⟩, rfl, .reached rfl⟩

/-- Requesting a table that is linked by an absent entry of a reached table. -/
theorem requestTable_unlinked (usable : machine.stack.Usable)
    (space : AddressSpace hhdmOffset machine root Set.univ) (available : machine.free ≠ [])
    (membership : path ++ [index] ∈ within (Set.univ : Set Slot))
    (reached : follow pageFormat (tables hhdmOffset machine.memory) root path = some table)
    (absent : RadixTable.next pageFormat (tables hhdmOffset machine.memory) table index = none)
    (unset : flags.getLsbD 0 = false) :
    let result := requestTable hhdmOffset machine (table.pointer hhdmOffset) (index.setWidth 64) flags
    ∃ fresh : Frame, Touched hhdmOffset root [fresh] machine result ∧
      SameTree hhdmOffset root machine.memory result.memory ∧
      tables hhdmOffset result.memory table index = fresh.address ||| flags ∧
      InUse hhdmOffset root result fresh ∧
      ∀ position, tables hhdmOffset result.memory fresh position = 0#64 := by
  intro result
  have requested := pmmRequestPage_spec hhdmOffset available
  obtain ⟨fresh, -, isFrame, notFree⟩ := requested.frame usable
  have pathIn := Domain.prefix_mem membership
  have same := requested.sameTables isFrame space
  have inner := requested.space isFrame space
  have isFree : fresh.address ∈ machine.free := by
    rw [requested.free, isFrame]
    simp
  have different : fresh ≠ table := by
    rintro rfl
    exact space.apart path pathIn _ reached isFree
  have isResult : result = _ := requestTable_absent absent
  have stored : tables hhdmOffset result.memory =
      write (tables hhdmOffset (pmmRequestPage hhdmOffset machine).2.memory) table index
        (fresh.address ||| flags) := by
    rw [isResult, isFrame]
    exact tables_writeEntry _ _ _ _
  have reachedInner : follow pageFormat
      (tables hhdmOffset (pmmRequestPage hhdmOffset machine).2.memory) root path = some table := by
    rw [same.follow pathIn, reached]
  have absentInner : RadixTable.next pageFormat
      (tables hhdmOffset (pmmRequestPage hhdmOffset machine).2.memory) table index = none := by
    rw [next_eq_none_iff, same.tables_eq pathIn reached, ← next_eq_none_iff]
    exact absent
  have sameInner := fun other => @follow_write_absent _ _ _ pageFormat _ root _ _ index table
    (fresh.address ||| flags) absentInner ((present_address_or fresh flags).trans unset) other
  have tree : SameTree hhdmOffset root machine.memory result.memory := by
    constructor
    · intro other otherIn
      rw [stored, sameInner, same.follow otherIn]
    · intro virt
      have shorter : ¬(tablePath virt = path ∧ slot1 virt = index) := by
        rintro ⟨rfl, -⟩
        exact leaf_not_mem_within _ _ _ membership
      rw [leafEntry, stored, entryAt_write inner.tree pathIn reachedInner
        (tablePath_mem_within (Set.mem_univ _)) (sameInner _), if_neg shorter]
      exact same.leafEntry (Set.mem_univ _)
  have notTable : ∀ other ∈ within (Set.univ : Set Slot),
      follow pageFormat (tables hhdmOffset result.memory) root other ≠ some fresh := by
    intro other otherIn reachedFresh
    rw [tree.follow other otherIn] at reachedFresh
    exact space.apart other otherIn fresh reachedFresh isFree
  have free : result.free = (pmmRequestPage hhdmOffset machine).2.free := by rw [isResult]
  refine ⟨fresh, ⟨?_, ?_, ⟨?_, ?_⟩, ?_, ?_⟩, tree, ?_, ⟨by rwa [free], notTable⟩, ?_⟩
  · rw [free, requested.free, isFrame]
    rfl
  · rw [isResult]
    exact requested.max
  · exact space.tree.congr tree.follow
  · intro other otherIn last lastReached stillFree
    rw [tree.follow other otherIn] at lastReached
    apply space.apart other otherIn last lastReached
    rw [requested.free, ← free]
    exact List.mem_append_left _ stillFree
  · intro other otherIn last lastReached
    rw [tree.follow other otherIn] at lastReached
    exact Or.inl lastReached
  · intro address offFresh offTables
    rw [isResult]
    change writeEntry _ _ _ _ address = _
    rw [writeEntry_outside (offTables path pathIn table reached),
      requested.outside isFrame (offFresh fresh List.mem_cons_self)]
  · rw [stored, write_same]
  · intro position
    rw [stored, write_other (fun same => different same.1), tables_request requested isFrame,
      blank_same]

/-- Requesting a table that is linked by an entry of a table that is not reached. -/
theorem requestTable_apart (usable : machine.stack.Usable)
    (touched : Touched hhdmOffset root taken start machine) (available : machine.free ≠ [])
    (cleared : ∀ index, tables hhdmOffset machine.memory table index = 0#64)
    (inUse : InUse hhdmOffset root machine table) (isTaken : table ∈ taken) :
    let result := requestTable hhdmOffset machine (table.pointer hhdmOffset) (index.setWidth 64) flags
    ∃ fresh : Frame, Touched hhdmOffset root (taken ++ [fresh]) start result ∧
      SameTree hhdmOffset root machine.memory result.memory ∧
      tables hhdmOffset result.memory table index = fresh.address ||| flags ∧
      InUse hhdmOffset root result fresh ∧
      ∀ position, tables hhdmOffset result.memory fresh position = 0#64 := by
  intro result
  have requested := pmmRequestPage_spec hhdmOffset available
  obtain ⟨fresh, -, isFrame, notFree⟩ := requested.frame usable
  have same := requested.sameTables isFrame touched.space
  have isFree : fresh.address ∈ machine.free := by
    rw [requested.free, isFrame]
    simp
  have different : fresh ≠ table := by
    rintro rfl
    exact inUse.notFree isFree
  have absent : RadixTable.next pageFormat (tables hhdmOffset machine.memory) table index = none := by
    rw [next_eq_none_iff, cleared]
    rfl
  have isResult : result = _ := requestTable_absent absent
  have free : result.free = (pmmRequestPage hhdmOffset machine).2.free := by rw [isResult]
  have outside : ∀ address, ¬fresh.Holds hhdmOffset address → ¬table.Holds hhdmOffset address →
      result.memory address = machine.memory address := by
    intro address offFresh offTable
    rw [isResult]
    change writeEntry _ _ _ _ address = _
    rw [writeEntry_outside offTable, requested.outside isFrame offFresh]
  have sameResult : SameTables hhdmOffset root Set.univ machine.memory result.memory := by
    intro path membership last reached address inLast
    apply outside
    · intro inFresh
      rw [inLast.unique inFresh] at reached
      exact touched.space.apart path membership fresh reached isFree
    · intro inTable
      rw [inLast.unique inTable] at reached
      exact inUse.notTable path membership reached
  have stored : tables hhdmOffset result.memory =
      write (tables hhdmOffset (pmmRequestPage hhdmOffset machine).2.memory) table index
        (fresh.address ||| flags) := by
    rw [isResult, isFrame]
    exact tables_writeEntry _ _ _ _
  refine ⟨fresh, touched.more ?_ ?_ sameResult ?_, .of_sameTables sameResult, ?_,
    ⟨by rwa [free], ?_⟩, ?_⟩
  · rw [free, requested.free, isFrame]
    rfl
  · rw [isResult]
    exact requested.max
  · intro address off
    exact outside address (off fresh (by simp)) (off table (List.mem_append_left _ isTaken))
  · rw [stored, write_same]
  · intro path membership reached
    rw [sameResult.follow membership] at reached
    exact touched.space.apart path membership fresh reached isFree
  · intro position
    rw [stored, write_other (fun same => different same.1), tables_request requested isFrame,
      blank_same]

/-- One of the three upper levels of `vmm_map`. -/
theorem Unlinked.requestTable (unlinked : Unlinked hhdmOffset root path taken table start machine)
    (usable : start.stack.Usable)
    (membership : path ++ [index] ∈ within (Set.univ : Set Slot))
    (unset : flags.getLsbD 0 = false) (valid : NoAddress flags)
    (available : missing pageFormat (tables hhdmOffset start.memory) root (path ++ [index]) ≤
      start.free.length) :
    let result := requestTable hhdmOffset machine (table.pointer hhdmOffset) (index.setWidth 64) flags
    ∃ taken child, Unlinked hhdmOffset root (path ++ [index]) taken child start result ∧
      entryTable hhdmOffset
        (readEntry result.memory (table.pointer hhdmOffset) (index.setWidth 64)) =
          child.pointer hhdmOffset := by
  intro result
  have touched := unlinked.touched
  have nowUsable := touched.usable usable
  have missing := @missing_snoc _ _ _ pageFormat (tables hhdmOffset start.memory) root path index
  have lengths := congrArg List.length touched.free
  rw [List.length_append, List.length_map, List.length_reverse, unlinked.count] at lengths
  -- an absent link needs one more frame
  have nonempty : follow pageFormat (tables hhdmOffset start.memory) root (path ++ [index]) = none →
      machine.free ≠ [] := by
    intro dead empty
    rw [missing, if_pos dead] at available
    rw [empty, List.length_nil] at lengths
    omega
  have count : follow pageFormat (tables hhdmOffset start.memory) root (path ++ [index]) = none →
      ∀ fresh : Frame, (taken ++ [fresh]).length =
        RadixTable.missing pageFormat (tables hhdmOffset start.memory) root (path ++ [index]) := by
    intro dead fresh
    rw [missing, if_pos dead, List.length_append, unlinked.count]
    rfl
  have pathIn := Domain.prefix_mem membership
  cases unlinked.walk with
  | reached follows =>
      cases linked : RadixTable.next pageFormat (tables hhdmOffset machine.memory) table index with
      | some child =>
          have further : follow pageFormat (tables hhdmOffset machine.memory) root
              (path ++ [index]) = some child := by
            rw [follow_snoc, follows, Option.bind_some, linked]
          have unchanged : result = machine := requestTable_present linked
          rw [unchanged]
          refine ⟨taken, child, ⟨touched, unlinked.tree, ?_, .reached further⟩,
            entryTable_of_follow follows further⟩
          rw [unlinked.tree.follow _ membership] at further
          rw [missing, if_neg (by rw [further]; simp), unlinked.count, Nat.add_zero]
      | none =>
          have dead : follow pageFormat (tables hhdmOffset machine.memory) root
              (path ++ [index]) = none := by
            rw [follow_snoc, follows, Option.bind_some, linked]
          have before := dead
          rw [unlinked.tree.follow _ membership] at before
          obtain ⟨fresh, more, same, entry, inUse, cleared⟩ := requestTable_unlinked nowUsable
            touched.space (nonempty before) membership follows linked unset
          refine ⟨taken ++ [fresh], fresh, ⟨touched.trans more, ?_, count before fresh, ?_⟩, ?_⟩
          · exact unlinked.tree.trans same
          · refine .apart ?_ cleared inUse (by simp)
            rw [same.follow _ membership]
            exact dead
          · rw [readEntry_pointer, entry, entryTable, valid.masked, Frame.pointer]
  | apart noWay cleared inUse isTaken =>
      have dead : follow pageFormat (tables hhdmOffset machine.memory) root
          (path ++ [index]) = none := by
        rw [follow_snoc, noWay, Option.bind_none]
      have before := dead
      rw [unlinked.tree.follow _ membership] at before
      obtain ⟨fresh, more, same, entry, freshInUse, blank⟩ := requestTable_apart nowUsable touched
        (nonempty before) cleared inUse isTaken
      refine ⟨taken ++ [fresh], fresh, ⟨more, unlinked.tree.trans same, count before fresh, ?_⟩, ?_⟩
      · refine .apart ?_ blank freshInUse (by simp)
        rw [same.follow _ membership]
        exact dead
      · rw [readEntry_pointer, entry, entryTable, valid.masked, Frame.pointer]

/-- What `vmm_map` does with any flag bits: the page leads to `phys`, or to nothing where
the flags leave out `VMM_PRESENT`. -/
structure PageMapped (hhdmOffset : U64) (root : Frame) (virt phys flags : U64)
    (taken : List Frame) (machine next : Machine) : Prop where
  touched : Touched hhdmOffset root taken machine next
  page : virtToPhys hhdmOffset next.memory (root.pointer hhdmOffset) virt = phys ∨
    flags.getLsbD 0 = false ∧
      virtToPhys hhdmOffset next.memory (root.pointer hhdmOffset) virt = 0#64
  others : ∀ other, pageNumber other ≠ pageNumber virt →
    virtToPhys hhdmOffset next.memory (root.pointer hhdmOffset) other =
      virtToPhys hhdmOffset machine.memory (root.pointer hhdmOffset) other

theorem Mapped.pageMapped {virt : U64} {frame : Frame} (valid : NoAddress flags)
    (mapped : Mapped hhdmOffset root Set.univ virt flags (frame.address ||| flags) taken machine
      next) : PageMapped hhdmOffset root virt frame.address flags taken machine next where
  touched := mapped.touched
  page := by
    left
    rw [virtToPhys_eq, mapped.leafSet, Option.getD_some, valid.masked]
  others := by
    intro other different
    rw [virtToPhys_eq, mapped.leaf other (Set.mem_univ _), if_neg different, virtToPhys_eq]

/-- The leaf at the end of a walk without the present flag. -/
theorem Unlinked.setLeaf {virt : U64} {frame : Frame}
    (unlinked : Unlinked hhdmOffset root (tablePath virt) taken table start machine)
    (unset : flags.getLsbD 0 = false) (valid : NoAddress flags) :
    PageMapped hhdmOffset root virt frame.address flags taken start
      { machine with
        memory := writeEntry machine.memory (table.pointer hhdmOffset) ((slot1 virt).setWidth 64)
          (frame.address ||| flags) } := by
  have pathIn : tablePath virt ∈ within (Set.univ : Set Slot) :=
    tablePath_mem_within (Set.mem_univ _)
  have space := unlinked.touched.space
  cases unlinked.walk with
  | reached follows =>
      have stored : tables hhdmOffset _ = _ :=
        tables_writeEntry machine.memory table (slot1 virt) (frame.address ||| flags)
      have sameFollow : ∀ other ∈ within (Set.univ : Set Slot), _ := fun other otherIn =>
        @follow_write_leaf _ _ _ _ _ _ _ _ _ _ _ _ (frame.address ||| flags) space.tree pathIn follows
          (leaf_not_mem_within Set.univ virt (slot1 virt)) other otherIn
      have leaf : ∀ other, leafEntry hhdmOffset (writeEntry machine.memory
          (table.pointer hhdmOffset) ((slot1 virt).setWidth 64) (frame.address ||| flags)) root
            other = if pageNumber other = pageNumber virt then some (frame.address ||| flags)
          else leafEntry hhdmOffset start.memory root other := by
        intro other
        have otherIn : tablePath other ∈ within (Set.univ : Set Slot) :=
          tablePath_mem_within (Set.mem_univ _)
        rw [leafEntry, stored, entryAt_write space.tree pathIn follows otherIn (sameFollow _ otherIn)]
        by_cases samePage : pageNumber other = pageNumber virt
        · rw [if_pos samePage, if_pos (pageNumber_eq_iff.mp samePage)]
        · rw [if_neg samePage, if_neg (fun same => samePage (pageNumber_eq_iff.mpr same))]
          exact unlinked.tree.leaf other
      have touched := unlinked.touched
      refine ⟨⟨touched.free, touched.max, ⟨?_, ?_⟩, ?_, ?_⟩, ?_, ?_⟩
      · rw [stored]
        exact space.tree.congr sameFollow
      · intro other otherIn last lastReached
        rw [stored, sameFollow other otherIn] at lastReached
        exact space.apart other otherIn last lastReached
      · intro other otherIn last lastReached
        rw [stored, sameFollow other otherIn] at lastReached
        exact touched.origin other otherIn last lastReached
      · intro address offTaken offTables
        change writeEntry _ _ _ _ address = _
        rw [writeEntry_outside, touched.outside address offTaken offTables]
        rcases touched.origin _ pathIn table follows with before | new
        · exact offTables _ pathIn table before
        · exact offTaken table new
      · left
        rw [virtToPhys_eq, leaf, if_pos rfl, Option.getD_some, valid.masked]
      · intro other different
        rw [virtToPhys_eq, leaf, if_neg different, virtToPhys_eq]
  | apart noWay cleared inUse isTaken =>
      have outside : ∀ address, ¬table.Holds hhdmOffset address →
          writeEntry machine.memory (table.pointer hhdmOffset) ((slot1 virt).setWidth 64)
            (frame.address ||| flags) address = machine.memory address :=
        fun address offTable => writeEntry_outside offTable
      have same := SameTables.of_frame table inUse.notTable outside
      have tree := unlinked.tree.trans (.of_sameTables same)
      have touched : Touched hhdmOffset root (taken ++ []) start
          { machine with
            memory := writeEntry machine.memory (table.pointer hhdmOffset)
              ((slot1 virt).setWidth 64) (frame.address ||| flags) } :=
        unlinked.touched.more (by simp) rfl same fun address off =>
          outside address (off table (List.mem_append_left _ isTaken))
      rw [List.append_nil] at touched
      refine ⟨touched, Or.inr ⟨unset, ?_⟩, ?_⟩
      · rw [virtToPhys_eq, leafEntry, entryAt, tree.follow _ pathIn, ← unlinked.tree.follow _ pathIn,
          noWay]
        exact BitVec.zero_and
      · intro other _
        rw [virtToPhys_eq, tree.leaf other, virtToPhys_eq]

/-- `vmm_map` with flags that leave the address bits alone, given the frames for the
tables it lacks. -/
theorem vmmMap_pageMapped (virt : U64) (frame : Frame) (usable : machine.stack.Usable)
    (space : AddressSpace hhdmOffset machine root Set.univ) (valid : NoAddress flags)
    (available : missingTables hhdmOffset machine.memory (root.pointer hhdmOffset) virt ≤
      machine.free.length) :
    ∃ taken, PageMapped hhdmOffset root virt frame.address flags taken machine
      (vmmMap hhdmOffset machine (root.pointer hhdmOffset) virt frame.address flags) := by
  cases isPresent : flags.getLsbD 0 with
  | true =>
      obtain ⟨taken, -, mapped⟩ := vmmMap_spec virt frame.address usable space (Set.mem_univ _)
        ⟨isPresent, valid⟩ available
      exact ⟨taken, mapped.pageMapped valid⟩
  | false =>
      rw [missingTables_eq] at available
      have pathIn : [slot4 virt] ++ [slot3 virt] ++ [slot2 virt] ∈ within (Set.univ : Set Slot) :=
        tablePath_mem_within (Set.mem_univ _)
      have pathIn3 := Domain.prefix_mem pathIn
      have pathIn4 : [] ++ [slot4 virt] ∈ within (Set.univ : Set Slot) := Domain.prefix_mem pathIn3
      have enough4 := (missing_prefix_le (tables hhdmOffset machine.memory) root
        [slot4 virt] [slot3 virt, slot2 virt]).trans available
      have enough3 := (missing_prefix_le (tables hhdmOffset machine.memory) root
        [slot4 virt, slot3 virt] [slot2 virt]).trans available
      obtain ⟨taken4, table3, unlinked4, pointer3⟩ :=
        (Unlinked.refl space).requestTable usable pathIn4 isPresent valid enough4
      obtain ⟨taken3, table2, unlinked3, pointer2⟩ :=
        unlinked4.requestTable usable pathIn3 isPresent valid enough3
      obtain ⟨taken, table1, unlinked, pointer1⟩ :=
        unlinked3.requestTable usable pathIn isPresent valid available
      have mapped : PageMapped hhdmOffset root virt frame.address flags taken machine _ :=
        unlinked.setLeaf isPresent valid
      refine ⟨taken, ?_⟩
      simp only [vmmMap, pml4Idx_eq, pml3Idx_eq, pml2Idx_eq, pml1Idx_eq]
      rw [pointer3, pointer2, pointer1]
      exact mapped

end Nekonix
