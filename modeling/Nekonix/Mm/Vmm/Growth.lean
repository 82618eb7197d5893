import Nekonix.Mm.Vmm.Tables

/-!
# Creating the tables on a path

An address space is a tree of tables none of whose frames is on the free
stack.  The three upper levels of `vmm_map` keep it one: each finds a table or
hangs a fresh, cleared frame below its entry.
-/

namespace Nekonix

open FlatMemory RadixTable

/-- The free stack lists distinct page frames, none of them page 0. -/
structure PmmStack.Usable (stack : PmmStack) : Prop where
  frame : ∀ page ∈ stack.frames, ∃ frame : Frame, frame ≠ 0#40 ∧ page = frame.address
  nodup : stack.frames.Nodup

/-- Paths of at most three indices whose first index is one of `slots`. -/
def within (slots : Set Slot) : Domain Slot where
  carrier := {path | path.length ≤ 3 ∧ ∀ first ∈ path.head?, first ∈ slots}
  closed := by
    rintro path index ⟨short, start⟩
    constructor
    · rw [List.length_append] at short
      exact le_trans (Nat.le_add_right _ _) short
    · cases path with
      | nil => simp
      | cons first rest => simpa using start

theorem mem_within {slots : Set Slot} {path : List Slot} :
    path ∈ within slots ↔ path.length ≤ 3 ∧ ∀ first ∈ path.head?, first ∈ slots := Iff.rfl

theorem nil_mem_within {slots : Set Slot} : [] ∈ within slots := ⟨by simp, by simp⟩

/-- The tables below the given top-level slots form a tree and are not free. -/
structure AddressSpace (hhdmOffset : U64) (machine : Machine) (root : Frame)
    (slots : Set Slot) : Prop where
  tree : IsTree pageFormat (tables hhdmOffset machine.memory) root (within slots)
  apart : ∀ path ∈ within slots, ∀ table,
    follow pageFormat (tables hhdmOffset machine.memory) root path = some table →
    table.address ∉ machine.free

/-- Flags that mark an entry present and leave its address bits alone. -/
structure EntryFlags (flags : U64) : Prop where
  present : flags.getLsbD 0 = true
  address : flags &&& entryMask = 0#64

/-- An entry with these flags. -/
def Carries (flags entry : U64) : Prop := ∃ frame : Frame, entry = frame.address ||| flags

variable {hhdmOffset flags : U64} {machine next : Machine} {root : Frame} {slots : Set Slot}

theorem Frame.address_masked (frame : Frame) : frame.address &&& entryMask = frame.address := by
  apply BitVec.eq_of_getLsbD_eq
  intro bit bound
  simp only [BitVec.getLsbD_and, entryMask_getLsbD, address, BitVec.getLsbD_shiftLeft,
    BitVec.getLsbD_setWidth]
  by_cases low : bit < 12
  · simp [low]
  · by_cases high : bit < 52
    · have inField : 12 ≤ bit ∧ bit < 52 := by omega
      simp [inField]
    · have beyond : frame.getLsbD (bit - 12) = false := BitVec.getLsbD_of_ge _ _ (by omega)
      simp [beyond]

theorem EntryFlags.masked (valid : EntryFlags flags) (frame : Frame) :
    (frame.address ||| flags) &&& entryMask = frame.address := by
  rw [BitVec.and_comm, BitVec.and_or_distrib_left, BitVec.and_comm, frame.address_masked,
    BitVec.and_comm, valid.address, BitVec.or_zero]

theorem EntryFlags.target (valid : EntryFlags flags) (frame : Frame) :
    pageFormat.target (frame.address ||| flags) = frame := by
  have masked := valid.masked frame
  rw [and_entryMask] at masked
  exact Frame.address_inj.mp masked

theorem EntryFlags.entryPresent (valid : EntryFlags flags) (page : U64) :
    pageFormat.present (page ||| flags) = true := by
  simp [pageFormat, valid.present]

theorem present_zero : pageFormat.present 0#64 = false := rfl

theorem tables_request {page : U64} {frame : Frame} (requested : Requested hhdmOffset machine page next)
    (isFrame : page = frame.address) :
    tables hhdmOffset next.memory = blank (tables hhdmOffset machine.memory) frame 0#64 := by
  rw [requested.memory, isFrame]
  exact tables_fill machine.memory frame

theorem Requested.outside {page : U64} {frame : Frame}
    (requested : Requested hhdmOffset machine page next) (isFrame : page = frame.address)
    {address : U64} (outside : ¬frame.Holds hhdmOffset address) :
    next.memory address = machine.memory address := by
  rw [requested.memory, isFrame]
  exact fill_outside outside

theorem Requested.usable {page : U64} (requested : Requested hhdmOffset machine page next)
    (usable : machine.stack.Usable) : next.stack.Usable := by
  constructor
  · intro other membership
    apply usable.frame other
    change other ∈ machine.free
    rw [requested.free]
    exact List.mem_append_left _ membership
  · have nodup := usable.nodup
    change machine.free.Nodup at nodup
    rw [requested.free] at nodup
    exact (List.nodup_append.mp nodup).1

theorem Requested.frame {page : U64} (requested : Requested hhdmOffset machine page next)
    (usable : machine.stack.Usable) :
    ∃ frame : Frame, frame ≠ 0#40 ∧ page = frame.address ∧ frame.address ∉ next.free := by
  have membership : page ∈ machine.free := by
    rw [requested.free]
    simp
  obtain ⟨frame, nonzero, rfl⟩ := usable.frame page membership
  refine ⟨frame, nonzero, rfl, ?_⟩
  have nodup := usable.nodup
  change machine.free.Nodup at nodup
  rw [requested.free] at nodup
  intro stillFree
  exact (List.nodup_append.mp nodup).2.2 _ stillFree _ (by simp) rfl

/-- The state after the tables on a path exist: `created` were taken, in this order. -/
structure Extended (hhdmOffset : U64) (root : Frame) (slots : Set Slot) (flags : U64)
    (path : List Slot) (created : List Frame) (machine next : Machine) : Prop where
  growth : Grown pageFormat root (within slots) 0#64 (Carries flags) path created
    (tables hhdmOffset machine.memory) (tables hhdmOffset next.memory)
  free : machine.free = next.free ++ created.reverse.map Frame.address
  max : next.stack.max = machine.stack.max
  outside : ∀ address, (∀ frame ∈ created, ¬frame.Holds hhdmOffset address) →
    (∀ other position table, other ++ [position] <+: path →
      follow pageFormat (tables hhdmOffset machine.memory) root other = some table →
      ¬table.Holds hhdmOffset address) →
    next.memory address = machine.memory address

variable {path : List Slot} {created : List Frame}

theorem Extended.refl (space : AddressSpace hhdmOffset machine root slots) :
    Extended hhdmOffset root slots flags [] [] machine machine where
  growth := Grown.refl space.tree
  free := by simp
  max := rfl
  outside := fun _ _ _ => rfl

theorem Extended.usable (extended : Extended hhdmOffset root slots flags path created machine next)
    (usable : machine.stack.Usable) : next.stack.Usable := by
  constructor
  · intro page membership
    apply usable.frame page
    change page ∈ machine.free
    rw [extended.free]
    exact List.mem_append_left _ membership
  · have nodup := usable.nodup
    change machine.free.Nodup at nodup
    rw [extended.free] at nodup
    exact (List.nodup_append.mp nodup).1

theorem Extended.space (extended : Extended hhdmOffset root slots flags path created machine next)
    (usable : machine.stack.Usable) (space : AddressSpace hhdmOffset machine root slots) :
    AddressSpace hhdmOffset next root slots := by
  refine ⟨extended.growth.tree, ?_⟩
  intro other otherIn table reached stillFree
  rcases extended.growth.origin other otherIn table reached with before | new
  · apply space.apart other otherIn table before
    rw [extended.free]
    exact List.mem_append_left _ stillFree
  · have nodup := usable.nodup
    change machine.free.Nodup at nodup
    rw [extended.free] at nodup
    have taken : table.address ∈ created.reverse.map Frame.address := by
      simpa using ⟨table, new, rfl⟩
    exact (List.nodup_append.mp nodup).2.2 _ stillFree _ taken rfl

theorem entryTable_of_follow {memory : Memory} {table child : Frame} {index : Slot}
    (reached : follow pageFormat (tables hhdmOffset memory) root path = some table)
    (further : follow pageFormat (tables hhdmOffset memory) root (path ++ [index]) = some child) :
    entryTable hhdmOffset (readEntry memory (table.pointer hhdmOffset) (index.setWidth 64)) =
      child.pointer hhdmOffset := by
  rw [follow_snoc, reached, Option.bind_some, next_eq_some_iff] at further
  rw [readEntry_pointer, entryTable_eq, further.2]

theorem requestTable_present {table : Frame} {index : Slot} {child : Frame}
    (linked : RadixTable.next pageFormat (tables hhdmOffset machine.memory) table index =
      some child) :
    requestTable hhdmOffset machine (table.pointer hhdmOffset) (index.setWidth 64) flags =
      machine := by
  rw [requestTable, readEntry_pointer, if_neg]
  rw [notPresent_eq, (next_eq_some_iff.mp linked).1]
  simp

theorem requestTable_absent {table : Frame} {index : Slot}
    (absent : RadixTable.next pageFormat (tables hhdmOffset machine.memory) table index = none) :
    requestTable hhdmOffset machine (table.pointer hhdmOffset) (index.setWidth 64) flags =
      { (pmmRequestPage hhdmOffset machine).2 with
        memory := writeEntry (pmmRequestPage hhdmOffset machine).2.memory
          (table.pointer hhdmOffset) (index.setWidth 64)
          ((pmmRequestPage hhdmOffset machine).1 ||| flags) } := by
  rw [requestTable, readEntry_pointer, if_pos]
  rw [notPresent_eq, ← next_eq_none_iff]
  exact absent

/-- One of the three upper levels of `vmm_map`. -/
theorem Extended.requestTable (extended : Extended hhdmOffset root slots flags path created
    machine next) (usable : machine.stack.Usable)
    (space : AddressSpace hhdmOffset machine root slots) (valid : EntryFlags flags)
    {table : Frame} {index : Slot}
    (reached : follow pageFormat (tables hhdmOffset next.memory) root path = some table)
    (membership : path ++ [index] ∈ within slots)
    (available : missing pageFormat (tables hhdmOffset machine.memory) root (path ++ [index]) ≤
      machine.free.length) :
    let result := requestTable hhdmOffset next (table.pointer hhdmOffset) (index.setWidth 64) flags
    ∃ created child,
      Extended hhdmOffset root slots flags (path ++ [index]) created machine result ∧
      follow pageFormat (tables hhdmOffset result.memory) root (path ++ [index]) = some child ∧
      entryTable hhdmOffset
        (readEntry result.memory (table.pointer hhdmOffset) (index.setWidth 64)) =
          child.pointer hhdmOffset := by
  intro result
  cases linked : RadixTable.next pageFormat (tables hhdmOffset next.memory) table index with
  | some child =>
      have unchanged : result = next := requestTable_present linked
      have further : follow pageFormat (tables hhdmOffset next.memory) root (path ++ [index]) =
          some child := by
        rw [follow_snoc, reached, Option.bind_some, linked]
      rw [unchanged]
      refine ⟨created, child, ?_, further, entryTable_of_follow reached further⟩
      refine ⟨extended.growth.present membership reached linked, extended.free, extended.max, ?_⟩
      intro address offCreated offPath
      apply extended.outside address offCreated
      intro other position last isPrefix
      exact offPath other position last (isPrefix.trans (List.prefix_append _ _))
  | none =>
      have unlinked : follow pageFormat (tables hhdmOffset machine.memory) root
          (path ++ [index]) = none :=
        link_eq_none_iff.mp ((extended.growth.absent_iff membership reached).mp linked)
      have notEmpty : next.free ≠ [] := by
        intro empty
        have lengths := congrArg List.length extended.free
        have count := extended.growth.count
        rw [missing_snoc, if_pos unlinked] at available
        rw [empty, List.nil_append, List.length_map, List.length_reverse] at lengths
        omega
      have requested := pmmRequestPage_spec hhdmOffset notEmpty
      obtain ⟨fresh, -, isFrame, taken⟩ := requested.frame (extended.usable usable)
      have freshFree : fresh.address ∈ next.free := by
        rw [requested.free, isFrame]
        simp
      have able : Attachable pageFormat (tables hhdmOffset next.memory) root (within slots) path
          index table fresh 0#64 (fresh.address ||| flags) :=
        { tree := extended.growth.tree
          membership := membership
          reached := reached
          absent := linked
          unused := fun other otherIn reachedFresh =>
            (extended.space usable space).apart other otherIn fresh reachedFresh freshFree
          empty := present_zero
          present := valid.entryPresent _
          target := valid.target fresh }
      have stored : tables hhdmOffset result.memory =
          attach (tables hhdmOffset next.memory) table index fresh 0#64
            (fresh.address ||| flags) := by
        simp only [result, requestTable_absent linked]
        rw [tables_writeEntry, tables_request requested isFrame, isFrame]
        rfl
      have resultFree : result.free = (pmmRequestPage hhdmOffset next).2.free := by
        simp only [result, requestTable_absent linked]
      have growth := extended.growth.attach able ⟨fresh, rfl⟩
      rw [← stored] at growth
      have reachedTable : follow pageFormat (tables hhdmOffset result.memory) root path =
          some table := by
        have shorter : path ≠ path ++ [index] := by simp
        rw [stored, able.follow_attach (Domain.prefix_mem membership), if_neg shorter]
        exact reached
      have reachedFresh : follow pageFormat (tables hhdmOffset result.memory) root
          (path ++ [index]) = some fresh := by
        rw [stored, able.follow_attach membership, if_pos rfl]
      refine ⟨created ++ [fresh], fresh, ?_, reachedFresh,
        entryTable_of_follow reachedTable reachedFresh⟩
      refine ⟨growth, ?_, ?_, ?_⟩
      · rw [extended.free, requested.free, resultFree, isFrame]
        simp
      · simp only [result, requestTable_absent linked]
        exact requested.max.trans extended.max
      · intro address offCreated offPath
        have offFresh : ¬fresh.Holds hhdmOffset address := offCreated fresh (by simp)
        have offTable : ¬table.Holds hhdmOffset address := by
          rcases extended.growth.origin path (Domain.prefix_mem membership) table reached with
            before | new
          · exact offPath path index table (List.prefix_refl _) before
          · exact offCreated table (List.mem_append_left _ new)
        simp only [result, requestTable_absent linked]
        rw [writeEntry_outside offTable, requested.outside isFrame offFresh]
        apply extended.outside address
        · intro frame membership
          exact offCreated frame (List.mem_append_left _ membership)
        · intro other position last isPrefix
          exact offPath other position last (isPrefix.trans (List.prefix_append _ _))

end Nekonix
