import Nekonix.Library.RadixTable.Graded
import Nekonix.Mm.Vmm.NewPagemap

/-!
# Levels of tables

The pagemaps share the tables of the kernel's half, so a call through one of them
changes the translations of others.  The levels of the tables are common to all
pagemaps, and every call on any of them keeps the entries that are present above
the leaf tables.
-/

namespace Nekonix

open FlatMemory RadixTable

variable {hhdmOffset flags : U64} {machine next : Machine} {level later : Frame → Option Nat}
  {table child : Frame} {index : Slot} {height : Nat}

/-- A usable frame stack, and tables with levels that are not free.  The pagemaps
have level 0 and the leaf tables level 3. -/
structure Levels (hhdmOffset : U64) (level : Frame → Option Nat) (machine : Machine) : Prop where
  usable : machine.stack.Usable
  graded : Graded pageFormat (tables hhdmOffset machine.memory) 3 level
  taken : ∀ frame height, level frame = some height → frame.address ∉ machine.free

/-- The levels after a call, which keeps the links. -/
structure Evolved (hhdmOffset : U64) (level later : Frame → Option Nat)
    (machine next : Machine) : Prop where
  levels : Levels hhdmOffset later next
  grown : Extends level later
  links : KeepsLinks pageFormat 3 level (tables hhdmOffset machine.memory)
    (tables hhdmOffset next.memory)

theorem Levels.unchanged (levels : Levels hhdmOffset level machine) :
    Evolved hhdmOffset level level machine machine :=
  ⟨levels, .refl level, .refl _ _ _ _⟩

theorem Evolved.trans {between : Frame → Option Nat} {middle : Machine}
    (first : Evolved hhdmOffset level between machine middle)
    (second : Evolved hhdmOffset between later middle next) :
    Evolved hhdmOffset level later machine next :=
  ⟨second.levels, first.grown.trans second.grown, first.links.trans first.grown second.links⟩

theorem Levels.unused {page : Frame} (levels : Levels hhdmOffset level machine)
    (free : page.address ∈ machine.free) : level page = none := by
  cases atLevel : level page with
  | none => rfl
  | some height => exact (levels.taken page height atLevel free).elim

/-- One of the three upper levels of `vmm_map`. -/
theorem Levels.upperLevel (index : Slot) (levels : Levels hhdmOffset level machine)
    (atTable : level table = some height) (above : height < 3) (valid : EntryFlags flags)
    (available : notPresent (readEntry machine.memory (table.pointer hhdmOffset)
      (index.setWidth 64)) → machine.free ≠ []) :
    let result := requestTable hhdmOffset machine (table.pointer hhdmOffset) (index.setWidth 64) flags
    ∃ later child, Evolved hhdmOffset level later machine result ∧
      later child = some (height + 1) ∧
      entryTable hhdmOffset
        (readEntry result.memory (table.pointer hhdmOffset) (index.setWidth 64)) =
          child.pointer hhdmOffset := by
  intro result
  cases linked : RadixTable.next pageFormat (tables hhdmOffset machine.memory) table index with
  | some child =>
      have unchanged : result = machine := requestTable_present linked
      have target := (next_eq_some_iff.mp linked).2
      rw [unchanged]
      refine ⟨level, child, levels.unchanged,
        levels.graded table index child height atTable above linked, ?_⟩
      rw [entryTable_eq, readEntry_pointer, target]
  | none =>
      have absent := next_eq_none_iff.mp linked
      have requested := pmmRequestPage_spec hhdmOffset
        (available ((notPresent_eq _).mpr (by rw [readEntry_pointer]; exact absent)))
      obtain ⟨fresh, -, isFrame, notFree⟩ := requested.frame levels.usable
      have wasFree : fresh.address ∈ machine.free := by
        rw [requested.free, isFrame]
        simp
      have unused := levels.unused wasFree
      have stored : tables hhdmOffset result.memory =
          attach (tables hhdmOffset machine.memory) table index fresh 0#64
            (fresh.address ||| flags) := by
        simp only [result, requestTable_absent linked]
        rw [tables_writeEntry, tables_request requested isFrame, isFrame]
        rfl
      have resultStack : result.stack = (pmmRequestPage hhdmOffset machine).2.stack := by
        simp only [result, requestTable_absent linked]
      refine ⟨Function.update level fresh (some (height + 1)), fresh, ?_, Function.update_self .., ?_⟩
      · refine ⟨⟨?_, ?_, ?_⟩, .update unused, ?_⟩
        · rw [resultStack]
          exact requested.usable levels.usable
        · rw [stored]
          exact levels.graded.attach atTable unused present_zero (valid.target fresh)
        · intro frame frameHeight atLevel
          unfold Machine.free
          rw [resultStack]
          by_cases isFresh : frame = fresh
          · rw [isFresh]
            exact notFree
          · rw [Function.update_of_ne isFresh] at atLevel
            intro stillFree
            apply levels.taken frame frameHeight atLevel
            rw [requested.free]
            exact List.mem_append_left _ stillFree
        · rw [stored]
          exact .attach unused absent
      · rw [entryTable_eq, readEntry_pointer, stored, attach, write_same, valid.target]

/-- A write that sets no link. -/
theorem Levels.writeEntry {entry : U64} (levels : Levels hhdmOffset level machine)
    (noLink : level table = some 3 ∨ pageFormat.present entry = false ∧
      notPresent (readEntry machine.memory (table.pointer hhdmOffset) (index.setWidth 64))) :
    Evolved hhdmOffset level level machine
      { machine with
        memory := writeEntry machine.memory (table.pointer hhdmOffset) (index.setWidth 64)
          entry } := by
  refine ⟨⟨levels.usable, ?_, levels.taken⟩, .refl level, ?_⟩
  · rw [tables_writeEntry]
    rcases noLink with leaf | ⟨unset, -⟩
    · exact levels.graded.write_leaf leaf
    · exact levels.graded.write_absent unset
  · rw [tables_writeEntry]
    apply KeepsLinks.write
    intro height atLevel above
    rcases noLink with leaf | ⟨-, absent⟩
    · rw [leaf] at atLevel
      cases atLevel
      exact (Nat.lt_irrefl _ above).elim
    · rw [notPresent_eq, readEntry_pointer] at absent
      exact absent

/-! The calls -/

theorem requestTable_of_present {pagemap idx : U64}
    (present : ¬notPresent (readEntry machine.memory pagemap idx)) :
    requestTable hhdmOffset machine pagemap idx flags = machine := if_neg present

theorem length_free_requestTable (machine : Machine) (pagemap idx : U64) :
    machine.free.length ≤ (requestTable hhdmOffset machine pagemap idx flags).free.length + 1 := by
  unfold requestTable
  split
  · cases empty : machine.free with
    | nil => exact Nat.zero_le _
    | cons page rest =>
        have available : machine.free ≠ [] := by simp [empty]
        have lengths := congrArg List.length (pmmRequestPage_spec hhdmOffset available).free
        rw [List.length_append, List.length_singleton] at lengths
        rw [← empty]
        exact lengths.le
  · exact Nat.le_succ _

/-- Behind a level that is present the request of the next one finds what there was,
and behind a new one at least a frame less. -/
theorem requestTable_supply {pagemap idx : U64} {count : Nat}
    (absent : notPresent (readEntry machine.memory pagemap idx) →
      count + 1 ≤ machine.free.length)
    (present : ¬notPresent (readEntry machine.memory pagemap idx) →
      requestTable hhdmOffset machine pagemap idx flags = machine →
      count ≤ machine.free.length) :
    count ≤ (requestTable hhdmOffset machine pagemap idx flags).free.length := by
  by_cases top : notPresent (readEntry machine.memory pagemap idx)
  · have spent := @length_free_requestTable hhdmOffset flags machine pagemap idx
    have enough := absent top
    omega
  · have same := @requestTable_of_present hhdmOffset flags machine pagemap idx top
    have enough := present top same
    rwa [same]

/-- A mapping finds the frames for the tables it lacks, so every level gets one. -/
theorem Levels.map {root : Frame} (levels : Levels hhdmOffset level machine)
    (atRoot : level root = some 0) (virt phys : U64) (valid : EntryFlags flags)
    (available : missingTables hhdmOffset machine.memory (root.pointer hhdmOffset) virt ≤
      machine.free.length) :
    ∃ later, Evolved hhdmOffset level later machine
      (vmmMap hhdmOffset machine (root.pointer hhdmOffset) virt phys flags) := by
  unfold missingTables at available
  unfold vmmMap
  dsimp only at available ⊢
  simp only [pml4Idx_eq, pml3Idx_eq, pml2Idx_eq, pml1Idx_eq] at available ⊢
  have nonempty : ∀ machine : Machine, 1 ≤ machine.free.length → machine.free ≠ [] :=
    fun machine some => List.ne_nil_of_length_pos some
  have supply4 : notPresent (readEntry machine.memory (root.pointer hhdmOffset)
      ((slot4 virt).setWidth 64)) → 3 ≤ machine.free.length := by
    intro absent
    rwa [if_pos absent] at available
  obtain ⟨level3, table3, evolved3, at3, entry3⟩ := levels.upperLevel (slot4 virt) atRoot
    (by decide) valid fun absent => nonempty _ (Nat.le_trans (by decide) (supply4 absent))
  have supply3 : notPresent (readEntry (requestTable hhdmOffset machine (root.pointer hhdmOffset)
      ((slot4 virt).setWidth 64) flags).memory (table3.pointer hhdmOffset)
      ((slot3 virt).setWidth 64)) →
      2 ≤ (requestTable hhdmOffset machine (root.pointer hhdmOffset)
        ((slot4 virt).setWidth 64) flags).free.length := by
    intro absent
    refine requestTable_supply supply4 fun top same => ?_
    rw [same] at absent entry3
    rw [if_neg top, entry3, if_pos absent] at available
    exact available
  have supply2 : ∀ table2 : Frame, 
      entryTable hhdmOffset
        (readEntry (requestTable hhdmOffset (requestTable hhdmOffset machine
          (root.pointer hhdmOffset) ((slot4 virt).setWidth 64) flags) (table3.pointer hhdmOffset)
          ((slot3 virt).setWidth 64) flags).memory (table3.pointer hhdmOffset)
          ((slot3 virt).setWidth 64)) = table2.pointer hhdmOffset →
      notPresent (readEntry (requestTable hhdmOffset (requestTable hhdmOffset machine
          (root.pointer hhdmOffset) ((slot4 virt).setWidth 64) flags) (table3.pointer hhdmOffset)
          ((slot3 virt).setWidth 64) flags).memory (table2.pointer hhdmOffset)
          ((slot2 virt).setWidth 64)) →
      1 ≤ (requestTable hhdmOffset (requestTable hhdmOffset machine
          (root.pointer hhdmOffset) ((slot4 virt).setWidth 64) flags) (table3.pointer hhdmOffset)
          ((slot3 virt).setWidth 64) flags).free.length := by
    intro table2 entry2 absent
    refine requestTable_supply supply3 fun middle same => ?_
    rw [same] at absent entry2
    refine requestTable_supply (fun top => Nat.le_of_succ_le (supply4 top)) fun top same => ?_
    rw [same] at absent entry2 entry3 middle
    rw [if_neg top, entry3, if_neg middle, entry2, if_pos absent] at available
    exact available
  rw [entry3]
  generalize requestTable hhdmOffset machine (root.pointer hhdmOffset) ((slot4 virt).setWidth 64)
    flags = machine3 at *
  obtain ⟨level2, table2, evolved2, at2, entry2⟩ := evolved3.levels.upperLevel (slot3 virt) at3
    (by decide) valid fun absent => nonempty _ (Nat.le_trans (by decide) (supply3 absent))
  have supply2 := supply2 table2 entry2
  rw [entry2]
  generalize requestTable hhdmOffset machine3 (table3.pointer hhdmOffset)
    ((slot3 virt).setWidth 64) flags = machine2 at *
  obtain ⟨level1, table1, evolved1, at1, entry1⟩ := evolved2.levels.upperLevel (slot2 virt) at2
    (by decide) valid fun absent => nonempty _ (supply2 absent)
  rw [entry1]
  exact ⟨level1, ((evolved3.trans evolved2).trans evolved1).trans
    (evolved1.levels.writeEntry (Or.inl at1))⟩

/-- A present entry leads one level down. -/
theorem Levels.below (levels : Levels hhdmOffset level machine)
    (atTable : level table = some height) (above : height < 3)
    (present : ¬notPresent (readEntry machine.memory (table.pointer hhdmOffset)
      (index.setWidth 64))) :
    ∃ child, level child = some (height + 1) ∧
      entryTable hhdmOffset (readEntry machine.memory (table.pointer hhdmOffset)
        (index.setWidth 64)) = child.pointer hhdmOffset := by
  rw [notPresent_eq, readEntry_pointer, Bool.not_eq_false] at present
  refine ⟨_, levels.graded table index _ height atTable above
    (next_eq_some_iff.mpr ⟨present, rfl⟩), ?_⟩
  rw [entryTable_eq, readEntry_pointer]

/-- An unmapping writes zero over a leaf or over an entry that is not present. -/
theorem Levels.unmap {root : Frame} (levels : Levels hhdmOffset level machine)
    (atRoot : level root = some 0) (virt : U64) :
    Evolved hhdmOffset level level machine
      (vmmUnmap hhdmOffset machine (root.pointer hhdmOffset) virt) := by
  unfold vmmUnmap
  dsimp only
  simp only [pml4Idx_eq, pml3Idx_eq, pml2Idx_eq, pml1Idx_eq]
  split
  next absent => exact levels.writeEntry (Or.inr ⟨present_zero, absent⟩)
  next present4 =>
    obtain ⟨table3, at3, entry3⟩ := levels.below atRoot (by decide) present4
    rw [entry3]
    split
    next absent => exact levels.writeEntry (Or.inr ⟨present_zero, absent⟩)
    next present3 =>
      obtain ⟨table2, at2, entry2⟩ := levels.below at3 (by decide) present3
      rw [entry2]
      split
      next absent => exact levels.writeEntry (Or.inr ⟨present_zero, absent⟩)
      next present2 =>
        obtain ⟨table1, at1, entry1⟩ := levels.below at2 (by decide) present2
        rw [entry1]
        exact levels.writeEntry (Or.inl at1)

/-- A frame that is taken and cleared is at no level. -/
theorem Levels.request (levels : Levels hhdmOffset level machine) (available : machine.free ≠ []) :
    Evolved hhdmOffset level level machine (pmmRequestPage hhdmOffset machine).2 := by
  have requested := pmmRequestPage_spec hhdmOffset available
  obtain ⟨fresh, -, isFrame, -⟩ := requested.frame levels.usable
  have unused : level fresh = none := by
    apply levels.unused
    rw [requested.free, isFrame]
    simp
  have same : ∀ table height, level table = some height →
      tables hhdmOffset (pmmRequestPage hhdmOffset machine).2.memory table =
        tables hhdmOffset machine.memory table := by
    intro table height atLevel
    rw [tables_request requested isFrame]
    funext index
    apply if_neg
    rintro rfl
    rw [unused] at atLevel
    cases atLevel
  refine ⟨⟨requested.usable levels.usable, ?_, ?_⟩, .refl level, ?_⟩
  · intro table index child height atLevel above further
    rw [RadixTable.next, same table height atLevel] at further
    exact levels.graded table index child height atLevel above further
  · intro frame height atLevel stillFree
    apply levels.taken frame height atLevel
    rw [requested.free]
    exact List.mem_append_left _ stillFree
  · intro table index height atLevel above present
    rw [same table height atLevel]

/-- A new pagemap shares the kernel's tables of level 1. -/
theorem NewPagemap.evolved {kernel pagemap : Frame}
    (made : NewPagemap hhdmOffset kernel machine pagemap next)
    (levels : Levels hhdmOffset level machine) (atKernel : level kernel = some 0) :
    Evolved hhdmOffset level (Function.update level pagemap (some 0)) machine next := by
  have unused : level pagemap = none := by
    apply levels.unused
    rw [made.free]
    simp
  have same : ∀ table, table ≠ pagemap → tables hhdmOffset next.memory table =
      tables hhdmOffset machine.memory table := by
    intro table different
    apply tables_congr
    intro address inTable
    exact made.outside address fun inPagemap => different (inTable.unique inPagemap)
  have old : ∀ table height, level table = some height → table ≠ pagemap := by
    rintro table height atLevel rfl
    rw [unused] at atLevel
    cases atLevel
  refine ⟨⟨made.usable, ?_, ?_⟩, .update unused, ?_⟩
  · intro table index child height atLevel above further
    have leads : level child = some (height + 1) := by
      by_cases isPagemap : table = pagemap
      · rw [isPagemap, Function.update_self] at atLevel
        cases atLevel
        rw [RadixTable.next, isPagemap, made.entries] at further
        split at further
        next =>
          exact levels.graded kernel index child 0 atKernel (by decide) further
        next =>
          rw [present_zero] at further
          cases further
      · rw [Function.update_of_ne isPagemap] at atLevel
        rw [RadixTable.next, same table isPagemap] at further
        exact levels.graded table index child height atLevel above further
    rw [Function.update_of_ne (old child _ leads)]
    exact leads
  · intro frame height atLevel
    by_cases isPagemap : frame = pagemap
    · rw [isPagemap]
      exact made.notFree levels.usable
    · rw [Function.update_of_ne isPagemap] at atLevel
      intro stillFree
      apply levels.taken frame height atLevel
      rw [made.free]
      exact List.mem_append_left _ stillFree
  · intro table index height atLevel above present
    rw [same table (old table height atLevel)]

/-- The tables of one address space have levels. -/
theorem AddressSpace.levels {root : Frame} (usable : machine.stack.Usable)
    (space : AddressSpace hhdmOffset machine root Set.univ) :
    ∃ level, Levels hhdmOffset level machine ∧ level root = some 0 := by
  have within : ∀ path, path ∈ within (Set.univ : Set Slot) ↔ path.length ≤ 3 :=
    fun path => ⟨fun membership => membership.1, fun short => ⟨short, fun _ _ => Set.mem_univ _⟩⟩
  obtain ⟨level, graded, atRoot, reached⟩ := space.tree.graded within
  refine ⟨level, ⟨usable, graded, ?_⟩, atRoot⟩
  intro frame height atLevel
  obtain ⟨path, membership, found⟩ := reached frame height atLevel
  exact space.apart path membership frame found

end Nekonix
