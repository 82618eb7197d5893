import Nekonix.Mm.Vmm.Growth

/-!
# What one mapping does

`vmm_map` creates the missing tables on the path of its address and then sets
one leaf.  `Mapped` collects the consequences: the leaves of all addresses, the
links of the upper levels, the frames taken, and the memory left alone.
Everything about later calls is derived from it.
-/

namespace Nekonix

open FlatMemory RadixTable

variable {hhdmOffset flags : U64} {machine next : Machine} {root : Frame} {slots : Set Slot}
  {path : List Slot} {created : List Frame}

/-- The leaf entry of an address, where the tables on its path exist. -/
def leafEntry (hhdmOffset : U64) (memory : Memory) (root : Frame) (virt : U64) : Option U64 :=
  entryAt pageFormat (tables hhdmOffset memory) root (tablePath virt) (slot1 virt)

/-- The present entry that the walk of `path` uses at its last step. -/
def linkEntry (hhdmOffset : U64) (memory : Memory) (root : Frame) (path : List Slot)
    (index : Slot) : Option U64 :=
  link pageFormat (tables hhdmOffset memory) root path index

theorem virtToPhys_eq (memory : Memory) (root : Frame) (virt : U64) :
    virtToPhys hhdmOffset memory (root.pointer hhdmOffset) virt =
      (leafEntry hhdmOffset memory root virt).getD 0#64 &&& entryMask := by
  simp only [virtToPhys, leafEntry, entryAt, tablePath, pml4Idx_eq, pml3Idx_eq, pml2Idx_eq,
    pml1Idx_eq, readEntry_pointer, entryTable_eq, notPresent_eq, follow_cons, follow_nil,
    RadixTable.next]
  split
  next absent => simp [absent]
  next =>
    split
    next absent => simp_all
    next =>
      split
      next absent => simp_all
      next => simp_all

theorem missingTables_eq (memory : Memory) (root : Frame) (virt : U64) :
    missingTables hhdmOffset memory (root.pointer hhdmOffset) virt =
      missing pageFormat (tables hhdmOffset memory) root (tablePath virt) := by
  simp only [missingTables, missing, tablePath, pml4Idx_eq, pml3Idx_eq, pml2Idx_eq,
    readEntry_pointer, entryTable_eq, notPresent_eq, RadixTable.next]
  split
  next absent => simp [absent]
  next =>
    split
    next absent => simp_all
    next =>
      split
      next absent => simp_all
      next => simp_all

theorem missingTables_le (hhdmOffset : U64) (memory : Memory) (pagemap virt : U64) :
    missingTables hhdmOffset memory pagemap virt ≤ 3 := by
  simp only [missingTables]
  split_ifs <;> decide

theorem tablePath_mem_within {virt : U64} (start : slot4 virt ∈ slots) :
    tablePath virt ∈ within slots := by
  simpa [mem_within, tablePath] using start

theorem mem_within_onPath {virt : U64} (start : slot4 virt ∈ slots)
    (onPath : path <+: tablePath virt) : path ∈ within slots := by
  have whole := tablePath_mem_within start
  obtain ⟨rest, split⟩ := onPath
  rw [mem_within, ← split] at whole
  refine ⟨le_trans (by simp) whole.1, ?_⟩
  intro first isHead
  cases path with
  | nil => simp at isHead
  | cons head tail => exact whole.2 first isHead

theorem leaf_not_mem_within (slots : Set Slot) (virt : U64) (index : Slot) :
    tablePath virt ++ [index] ∉ within slots := by
  simp [mem_within, tablePath]

/-- What mapping `virt` to `entry` does; `taken` are the frames it consumed, in
the order it requested them. -/
structure Mapped (hhdmOffset : U64) (root : Frame) (slots : Set Slot) (virt flags entry : U64)
    (taken : List Frame) (machine next : Machine) : Prop where
  free : machine.free = next.free ++ taken.reverse.map Frame.address
  max : next.stack.max = machine.stack.max
  usable : next.stack.Usable
  space : AddressSpace hhdmOffset next root slots
  leafSet : leafEntry hhdmOffset next.memory root virt = some entry
  leaf : ∀ other, slot4 other ∈ slots →
    (leafEntry hhdmOffset next.memory root other).getD 0#64 =
      if pageNumber other = pageNumber virt then entry
      else (leafEntry hhdmOffset machine.memory root other).getD 0#64
  kept : ∀ path ∈ within slots, ∀ table,
    follow pageFormat (tables hhdmOffset machine.memory) root path = some table →
    follow pageFormat (tables hhdmOffset next.memory) root path = some table
  origin : ∀ path ∈ within slots, ∀ table,
    follow pageFormat (tables hhdmOffset next.memory) root path = some table →
    follow pageFormat (tables hhdmOffset machine.memory) root path = some table ∨ table ∈ taken
  linkKept : ∀ path index link, path ++ [index] ∈ within slots →
    linkEntry hhdmOffset machine.memory root path index = some link →
    linkEntry hhdmOffset next.memory root path index = some link
  linkNew : ∀ path index, path ++ [index] ∈ within slots →
    linkEntry hhdmOffset machine.memory root path index = none →
    path ++ [index] <+: tablePath virt →
    ∃ link, linkEntry hhdmOffset next.memory root path index = some link ∧ Carries flags link
  linkNone : ∀ path index, path ++ [index] ∈ within slots →
    linkEntry hhdmOffset machine.memory root path index = none →
    ¬path ++ [index] <+: tablePath virt →
    linkEntry hhdmOffset next.memory root path index = none
  outside : ∀ address, (∀ frame ∈ taken, ¬frame.Holds hhdmOffset address) →
    (∀ path table, path <+: tablePath virt →
      follow pageFormat (tables hhdmOffset machine.memory) root path = some table →
      ¬table.Holds hhdmOffset address) →
    next.memory address = machine.memory address

theorem Mapped.length_free {virt entry : U64} {taken : List Frame}
    (mapped : Mapped hhdmOffset root slots virt flags entry taken machine next) :
    machine.free.length = next.free.length + taken.length := by
  rw [mapped.free, List.length_append, List.length_map, List.length_reverse]

theorem within_mono {part : Set Slot} (subset : part ⊆ slots) (membership : path ∈ within part) :
    path ∈ within slots :=
  ⟨membership.1, fun first isHead => subset (membership.2 first isHead)⟩

theorem AddressSpace.restrict {part : Set Slot} (space : AddressSpace hhdmOffset machine root slots)
    (subset : part ⊆ slots) : AddressSpace hhdmOffset machine root part where
  tree := fun first second table firstIn secondIn =>
    space.tree first second table (within_mono subset firstIn) (within_mono subset secondIn)
  apart := fun path membership => space.apart path (within_mono subset membership)

/-- What holds below all top-level slots holds below some of them. -/
theorem Mapped.restrict {virt entry : U64} {taken : List Frame} {part : Set Slot}
    (mapped : Mapped hhdmOffset root slots virt flags entry taken machine next)
    (subset : part ⊆ slots) : Mapped hhdmOffset root part virt flags entry taken machine next where
  free := mapped.free
  max := mapped.max
  usable := mapped.usable
  space := mapped.space.restrict subset
  leafSet := mapped.leafSet
  leaf := fun other start => mapped.leaf other (subset start)
  kept := fun path membership => mapped.kept path (within_mono subset membership)
  origin := fun path membership => mapped.origin path (within_mono subset membership)
  linkKept := fun path index link membership =>
    mapped.linkKept path index link (within_mono subset membership)
  linkNew := fun path index membership => mapped.linkNew path index (within_mono subset membership)
  linkNone := fun path index membership => mapped.linkNone path index (within_mono subset membership)
  outside := mapped.outside

/-- Setting the leaf once the tables are there. -/
theorem Extended.setLeaf {virt entry : U64} {table : Frame}
    (extended : Extended hhdmOffset root slots flags (tablePath virt) created machine next)
    (usable : machine.stack.Usable) (space : AddressSpace hhdmOffset machine root slots)
    (start : slot4 virt ∈ slots)
    (reached : follow pageFormat (tables hhdmOffset next.memory) root (tablePath virt) =
      some table) :
    Mapped hhdmOffset root slots virt flags entry created machine
      { next with
        memory := writeEntry next.memory (table.pointer hhdmOffset) ((slot1 virt).setWidth 64)
          entry } := by
  have pathIn := tablePath_mem_within start
  have leaf := leaf_not_mem_within slots virt (slot1 virt)
  have extendedSpace := extended.space usable space
  have tree := extended.growth.tree
  have sameFollow : ∀ other ∈ within slots,
      follow pageFormat (write (tables hhdmOffset next.memory) table (slot1 virt) entry) root
        other = follow pageFormat (tables hhdmOffset next.memory) root other :=
    fun other otherIn => follow_write_leaf tree pathIn reached leaf otherIn
  have sameLink : ∀ path index, path ++ [index] ∈ within slots →
      link pageFormat (write (tables hhdmOffset next.memory) table (slot1 virt) entry) root path
        index = link pageFormat (tables hhdmOffset next.memory) root path index := by
    intro path index membership
    have different : ¬(path = tablePath virt ∧ index = slot1 virt) := by
      rintro ⟨rfl, rfl⟩
      exact leaf membership
    have before := Domain.prefix_mem membership
    rw [link, entryAt_write tree pathIn reached before (sameFollow path before),
      if_neg different]
    rfl
  have stored : ∀ memory, memory = writeEntry next.memory (table.pointer hhdmOffset)
      ((slot1 virt).setWidth 64) entry → tables hhdmOffset memory =
        write (tables hhdmOffset next.memory) table (slot1 virt) entry := by
    rintro memory rfl
    exact tables_writeEntry next.memory table (slot1 virt) entry
  refine
    { free := extended.free
      max := extended.max
      usable := extended.usable usable
      space := ⟨?tree, ?apart⟩
      leafSet := ?leafSet
      leaf := ?leaf
      kept := ?kept
      origin := ?origin
      linkKept := ?linkKept
      linkNew := ?linkNew
      linkNone := ?linkNone
      outside := ?outside }
  case tree =>
    rw [stored _ rfl]
    exact tree.congr sameFollow
  case apart =>
    intro path membership last lastReached
    rw [stored _ rfl, sameFollow path membership] at lastReached
    exact extendedSpace.apart path membership last lastReached
  case leafSet =>
    rw [leafEntry, stored _ rfl, entryAt_write tree pathIn reached pathIn (sameFollow _ pathIn),
      if_pos ⟨rfl, rfl⟩]
  case leaf =>
    intro other otherStart
    have otherIn := tablePath_mem_within otherStart
    rw [leafEntry, stored _ rfl, entryAt_write tree pathIn reached otherIn (sameFollow _ otherIn)]
    by_cases samePage : pageNumber other = pageNumber virt
    · rw [if_pos samePage, if_pos (pageNumber_eq_iff.mp samePage)]
      rfl
    · rw [if_neg samePage, if_neg (fun same => samePage (pageNumber_eq_iff.mpr same))]
      exact extended.growth.value _ otherIn _ (leaf_not_mem_within slots other (slot1 other))
  case kept =>
    intro path membership last lastReached
    rw [stored _ rfl, sameFollow path membership]
    exact extended.growth.kept path membership last lastReached
  case origin =>
    intro path membership last lastReached
    rw [stored _ rfl, sameFollow path membership] at lastReached
    exact extended.growth.origin path membership last lastReached
  case linkKept =>
    intro path index link membership linked
    rw [linkEntry, stored _ rfl, sameLink path index membership]
    exact extended.growth.linkKept path index link membership linked
  case linkNew =>
    intro path index membership unlinked isPrefix
    rw [linkEntry, stored _ rfl, sameLink path index membership]
    exact extended.growth.linkNew path index membership unlinked isPrefix
  case linkNone =>
    intro path index membership unlinked notPrefix
    rw [linkEntry, stored _ rfl, sameLink path index membership]
    exact extended.growth.linkNone path index membership unlinked notPrefix
  case outside =>
    intro address offTaken offPath
    have offTable : ¬table.Holds hhdmOffset address := by
      rcases extended.growth.origin _ pathIn table reached with before | new
      · exact offPath _ table (List.prefix_refl _) before
      · exact offTaken table new
    change writeEntry next.memory (table.pointer hhdmOffset) ((slot1 virt).setWidth 64) entry
      address = machine.memory address
    rw [writeEntry_outside offTable]
    apply extended.outside address offTaken
    intro other position last isPrefix
    exact offPath other last ((List.prefix_append _ _).trans isPrefix)

theorem missing_prefix_le (store : Store Frame Slot U64) (root : Frame) (path rest : List Slot) :
    missing pageFormat store root path ≤ missing pageFormat store root (path ++ rest) := by
  induction rest using List.reverseRecOn with
  | nil => simp
  | append_singleton rest index inductionHypothesis =>
      rw [← List.append_assoc, missing_snoc]
      exact le_trans inductionHypothesis (Nat.le_add_right _ _)

/-- `vmm_map`, given the frames for the tables it lacks. -/
theorem vmmMap_spec (virt phys : U64) (usable : machine.stack.Usable)
    (space : AddressSpace hhdmOffset machine root slots) (start : slot4 virt ∈ slots)
    (valid : EntryFlags flags)
    (available : missingTables hhdmOffset machine.memory (root.pointer hhdmOffset) virt ≤
      machine.free.length) :
    ∃ created,
      created.length = missingTables hhdmOffset machine.memory (root.pointer hhdmOffset) virt ∧
      Mapped hhdmOffset root slots virt flags (phys ||| flags) created machine
        (vmmMap hhdmOffset machine (root.pointer hhdmOffset) virt phys flags) := by
  rw [missingTables_eq] at available ⊢
  have pathIn : [slot4 virt] ++ [slot3 virt] ++ [slot2 virt] ∈ within slots :=
    tablePath_mem_within start
  have pathIn3 := Domain.prefix_mem pathIn
  have pathIn4 : [] ++ [slot4 virt] ∈ within slots := Domain.prefix_mem pathIn3
  have enough4 := (missing_prefix_le (tables hhdmOffset machine.memory) root
    [slot4 virt] [slot3 virt, slot2 virt]).trans available
  have enough3 := (missing_prefix_le (tables hhdmOffset machine.memory) root
    [slot4 virt, slot3 virt] [slot2 virt]).trans available
  have rootReached : follow pageFormat (tables hhdmOffset machine.memory) root [] = some root :=
    rfl
  have nothing : Extended hhdmOffset root slots flags [] [] machine machine :=
    Extended.refl space
  obtain ⟨created4, table3, extended4, reached3, pointer3⟩ :=
    nothing.requestTable usable space valid rootReached pathIn4 enough4
  obtain ⟨created3, table2, extended3, reached2, pointer2⟩ :=
    extended4.requestTable usable space valid reached3 pathIn3 enough3
  obtain ⟨created, table1, extended, reached1, pointer1⟩ :=
    extended3.requestTable usable space valid reached2 pathIn available
  refine ⟨created, extended.growth.count, ?_⟩
  have mapped : Mapped hhdmOffset root slots virt flags (phys ||| flags) created machine _ :=
    extended.setLeaf usable space start reached1
  simp only [vmmMap, pml4Idx_eq, pml3Idx_eq, pml2Idx_eq, pml1Idx_eq]
  rw [pointer3, pointer2, pointer1]
  exact mapped

end Nekonix
