import Nekonix.Mm.Vmm.Mapping

/-!
# Backing pages with frames

Bytes outside the reached tables do not matter to an address space.  So a page
that is given a fresh frame, mapped, and then filled with data is one mapping
that also takes the frame.
-/

namespace Nekonix

open FlatMemory RadixTable

variable {hhdmOffset flags entry virt : U64} {machine middle mapped next : Machine} {root : Frame}
  {slots : Set Slot} {memory other : Memory}

/-- The reached tables have the same bytes in `other`. -/
def SameTables (hhdmOffset : U64) (root : Frame) (slots : Set Slot) (memory other : Memory) :
    Prop :=
  ∀ path ∈ within slots, ∀ table,
    follow pageFormat (tables hhdmOffset memory) root path = some table →
    ∀ address, table.Holds hhdmOffset address → other address = memory address

namespace SameTables

theorem tables_eq (same : SameTables hhdmOffset root slots memory other) {path : List Slot}
    (membership : path ∈ within slots) {table : Frame}
    (reached : follow pageFormat (tables hhdmOffset memory) root path = some table) :
    tables hhdmOffset other table = tables hhdmOffset memory table :=
  tables_congr (same path membership table reached)

theorem follow (same : SameTables hhdmOffset root slots memory other) {path : List Slot}
    (membership : path ∈ within slots) :
    follow pageFormat (tables hhdmOffset other) root path =
      RadixTable.follow pageFormat (tables hhdmOffset memory) root path := by
  refine follow_congr ?_ membership
  intro before index table beforeIn reached
  have entries := same.tables_eq (Domain.prefix_mem beforeIn) reached
  simp only [RadixTable.next, entries]

theorem entryAt (same : SameTables hhdmOffset root slots memory other) {path : List Slot}
    (membership : path ∈ within slots) (index : Slot) :
    entryAt pageFormat (tables hhdmOffset other) root path index =
      RadixTable.entryAt pageFormat (tables hhdmOffset memory) root path index := by
  unfold RadixTable.entryAt
  rw [same.follow membership]
  cases reached : RadixTable.follow pageFormat (tables hhdmOffset memory) root path with
  | none => rw [Option.map_none, Option.map_none]
  | some table => rw [Option.map_some, Option.map_some, same.tables_eq membership reached]

theorem leafEntry (same : SameTables hhdmOffset root slots memory other)
    (start : slot4 virt ∈ slots) :
    leafEntry hhdmOffset other root virt = Nekonix.leafEntry hhdmOffset memory root virt :=
  same.entryAt (tablePath_mem_within start) _

theorem linkEntry (same : SameTables hhdmOffset root slots memory other) {path : List Slot}
    {index : Slot} (membership : path ++ [index] ∈ within slots) :
    linkEntry hhdmOffset other root path index =
      Nekonix.linkEntry hhdmOffset memory root path index := by
  unfold Nekonix.linkEntry link
  rw [same.entryAt (Domain.prefix_mem membership)]

theorem missing (same : SameTables hhdmOffset root slots memory other) {path : List Slot}
    (membership : path ∈ within slots) :
    missing pageFormat (tables hhdmOffset other) root path =
      RadixTable.missing pageFormat (tables hhdmOffset memory) root path := by
  induction path using List.reverseRecOn with
  | nil => rw [RadixTable.missing, RadixTable.missing]
  | append_singleton path index inductionHypothesis =>
      rw [missing_snoc, missing_snoc, inductionHypothesis (Domain.prefix_mem membership),
        same.follow membership]

theorem missingTables (same : SameTables hhdmOffset root slots memory other)
    (start : slot4 virt ∈ slots) :
    missingTables hhdmOffset other (root.pointer hhdmOffset) virt =
      Nekonix.missingTables hhdmOffset memory (root.pointer hhdmOffset) virt := by
  rw [missingTables_eq, missingTables_eq, same.missing (tablePath_mem_within start)]

theorem space (same : SameTables hhdmOffset root slots machine.memory next.memory)
    (space : AddressSpace hhdmOffset machine root slots)
    (free : ∀ page ∈ next.free, page ∈ machine.free) : AddressSpace hhdmOffset next root slots := by
  refine ⟨space.tree.congr fun path membership => same.follow membership, ?_⟩
  intro path membership table reached
  rw [same.follow membership] at reached
  exact fun stillFree => space.apart path membership table reached (free _ stillFree)

/-- Changes inside one frame that is no reached table. -/
theorem of_frame (frame : Frame)
    (notTable : ∀ path ∈ within slots,
      RadixTable.follow pageFormat (tables hhdmOffset memory) root path ≠ some frame)
    (outside : ∀ address, ¬frame.Holds hhdmOffset address → other address = memory address) :
    SameTables hhdmOffset root slots memory other := by
  intro path membership table reached address inTable
  apply outside
  intro inFrame
  have same := inTable.unique inFrame
  subst same
  exact notTable path membership reached

end SameTables

/-- Requesting the top frame leaves the reached tables alone. -/
theorem Requested.sameTables {page : U64} {frame : Frame}
    (requested : Requested hhdmOffset machine page middle) (isFrame : page = frame.address)
    (space : AddressSpace hhdmOffset machine root slots) :
    SameTables hhdmOffset root slots machine.memory middle.memory := by
  refine .of_frame frame ?_ ?_
  · intro path membership reached
    apply space.apart path membership frame reached
    rw [requested.free, isFrame]
    simp
  · intro address outside
    exact requested.outside isFrame outside

/-- A byte in no free frame and no reached table. -/
structure Quiet (hhdmOffset : U64) (root : Frame) (slots : Set Slot) (machine : Machine)
    (address : U64) : Prop where
  notFree : ∀ frame : Frame, frame.address ∈ machine.free → ¬frame.Holds hhdmOffset address
  notTable : ∀ path ∈ within slots, ∀ table,
    follow pageFormat (tables hhdmOffset machine.memory) root path = some table →
    ¬table.Holds hhdmOffset address

theorem Mapped.taken_free {taken : List Frame} {frame : Frame}
    (mapping : Mapped hhdmOffset root slots virt flags entry taken machine next)
    (membership : frame ∈ taken) : frame.address ∈ machine.free := by
  rw [mapping.free]
  exact List.mem_append_right _ (List.mem_map_of_mem (List.mem_reverse.mpr membership))

theorem Mapped.quiet {taken : List Frame} {address : U64}
    (mapping : Mapped hhdmOffset root slots virt flags entry taken machine next)
    (quiet : Quiet hhdmOffset root slots machine address) :
    Quiet hhdmOffset root slots next address := by
  constructor
  · intro frame stillFree
    apply quiet.notFree
    rw [mapping.free]
    exact List.mem_append_left _ stillFree
  · intro path membership table reached
    rcases mapping.origin path membership table reached with before | new
    · exact quiet.notTable path membership table before
    · exact quiet.notFree table (mapping.taken_free new)

/-- A quiet byte survives a mapping. -/
theorem Mapped.byte {taken : List Frame} {address : U64}
    (mapping : Mapped hhdmOffset root slots virt flags entry taken machine next)
    (start : slot4 virt ∈ slots) (quiet : Quiet hhdmOffset root slots machine address) :
    next.memory address = machine.memory address := by
  apply mapping.outside
  · exact fun frame new => quiet.notFree frame (mapping.taken_free new)
  · exact fun path table onPath reached =>
      quiet.notTable path (mem_within_onPath start onPath) table reached

theorem Frame.holds_pointer (frame : Frame) :
    frame.Holds hhdmOffset (frame.pointer hhdmOffset) := by
  unfold Holds InRange
  rw [BitVec.sub_self]
  decide

/-- The bytes of a frame that is neither free nor a table. -/
theorem Quiet.of_frame {frame : Frame} (notFree : frame.address ∉ machine.free)
    (notTable : ∀ path ∈ within slots,
      follow pageFormat (tables hhdmOffset machine.memory) root path ≠ some frame)
    {address : U64} (inFrame : frame.Holds hhdmOffset address) :
    Quiet hhdmOffset root slots machine address := by
  constructor
  · intro other free inOther
    have same := inFrame.unique inOther
    subst same
    exact notFree free
  · intro path membership table reached inTable
    have same := inFrame.unique inTable
    subst same
    exact notTable path membership reached

/-- A request keeps the tables of an address space in use. -/
theorem Requested.space {page : U64} {frame : Frame}
    (requested : Requested hhdmOffset machine page middle) (isFrame : page = frame.address)
    (space : AddressSpace hhdmOffset machine root slots) :
    AddressSpace hhdmOffset middle root slots := by
  refine (requested.sameTables isFrame space).space space ?_
  intro page membership
  rw [requested.free]
  exact List.mem_append_left _ membership

/-- A requested frame is quiet afterwards. -/
theorem Requested.quiet {page : U64} {frame : Frame}
    (requested : Requested hhdmOffset machine page middle) (isFrame : page = frame.address)
    (usable : machine.stack.Usable) (space : AddressSpace hhdmOffset machine root slots)
    {address : U64} (inFrame : frame.Holds hhdmOffset address) :
    Quiet hhdmOffset root slots middle address := by
  refine .of_frame ?_ ?_ inFrame
  · have nodup : machine.free.Nodup := usable.nodup
    rw [requested.free, isFrame] at nodup
    intro stillFree
    exact (List.nodup_append.mp nodup).2.2 _ stillFree _ (by simp) rfl
  · intro path membership reached
    rw [(requested.sameTables isFrame space).follow membership] at reached
    apply space.apart path membership frame reached
    rw [requested.free, isFrame]
    simp

/-- What backing a page with `frame` does; the frame is quiet afterwards. -/
structure Backed (hhdmOffset : U64) (root : Frame) (slots : Set Slot) (virt flags : U64)
    (frame : Frame) (created : List Frame) (machine next : Machine) : Prop where
  mapped : Mapped hhdmOffset root slots virt flags (frame.address ||| flags) (frame :: created)
    machine next
  quiet : ∀ address, frame.Holds hhdmOffset address → Quiet hhdmOffset root slots next address

/-- A page backed by a fresh frame: the frame is requested, the page is mapped,
and then the bytes of the frame are written. -/
theorem Requested.backed {page : U64} {frame : Frame} {created : List Frame}
    (requested : Requested hhdmOffset machine page middle) (isFrame : page = frame.address)
    (usable : machine.stack.Usable) (space : AddressSpace hhdmOffset machine root slots)
    (mapping : Mapped hhdmOffset root slots virt flags (frame.address ||| flags) created middle
      mapped)
    (start : slot4 virt ∈ slots)
    (outside : ∀ address, ¬frame.Holds hhdmOffset address →
      next.memory address = mapped.memory address)
    (stack : next.stack = mapped.stack) :
    Backed hhdmOffset root slots virt flags frame created machine next := by
  have before := requested.sameTables isFrame space
  have frameQuiet : ∀ address, frame.Holds hhdmOffset address →
      Quiet hhdmOffset root slots mapped address :=
    fun address inFrame => mapping.quiet (requested.quiet isFrame usable space inFrame)
  have after : SameTables hhdmOffset root slots mapped.memory next.memory := by
    refine .of_frame frame ?_ outside
    intro path membership reached
    exact (frameQuiet _ frame.holds_pointer).notTable path membership frame reached
      frame.holds_pointer
  have freeNext : next.free = mapped.free := congrArg PmmStack.frames stack
  refine ⟨?mapped, ?quiet⟩
  case quiet =>
    intro address inFrame
    have quiet := frameQuiet address inFrame
    constructor
    · intro other free
      rw [freeNext] at free
      exact quiet.notFree other free
    · intro path membership table reached
      rw [after.follow membership] at reached
      exact quiet.notTable path membership table reached
  refine
    { free := ?free
      max := ?max
      usable := ?usable
      space := after.space mapping.space (by simp [freeNext])
      leafSet := (after.leafEntry start).trans mapping.leafSet
      leaf := ?leaf
      kept := ?kept
      origin := ?origin
      linkKept := ?linkKept
      linkNew := ?linkNew
      linkNone := ?linkNone
      outside := ?outside }
  case free =>
    rw [requested.free, mapping.free, freeNext, isFrame]
    simp
  case max => rw [stack, mapping.max, requested.max]
  case usable => simpa [stack] using mapping.usable
  case leaf =>
    intro other otherStart
    rw [after.leafEntry otherStart, mapping.leaf other otherStart, before.leafEntry otherStart]
  case kept =>
    intro path membership table reached
    rw [after.follow membership]
    rw [← before.follow membership] at reached
    exact mapping.kept path membership table reached
  case origin =>
    intro path membership table reached
    rw [after.follow membership] at reached
    rw [← before.follow membership]
    exact (mapping.origin path membership table reached).imp_right (List.mem_cons_of_mem _)
  case linkKept =>
    intro path index link membership linked
    rw [after.linkEntry membership]
    rw [← before.linkEntry membership] at linked
    exact mapping.linkKept path index link membership linked
  case linkNew =>
    intro path index membership unlinked isPrefix
    rw [after.linkEntry membership]
    rw [← before.linkEntry membership] at unlinked
    exact mapping.linkNew path index membership unlinked isPrefix
  case linkNone =>
    intro path index membership unlinked notPrefix
    rw [after.linkEntry membership]
    rw [← before.linkEntry membership] at unlinked
    exact mapping.linkNone path index membership unlinked notPrefix
  case outside =>
    intro address offTaken offPath
    have offFrame := offTaken frame List.mem_cons_self
    rw [outside address offFrame, mapping.outside address, requested.outside isFrame offFrame]
    · intro other membership
      exact offTaken other (List.mem_cons_of_mem _ membership)
    · intro path table onPath reached
      rw [before.follow (mem_within_onPath start onPath)] at reached
      exact offPath path table onPath reached

/-- Requesting a frame and mapping a page to it, with the frames for both. -/
theorem backPage_spec (usable : machine.stack.Usable)
    (space : AddressSpace hhdmOffset machine root slots) (start : slot4 virt ∈ slots)
    (valid : EntryFlags flags)
    (enough : 1 + missingTables hhdmOffset machine.memory (root.pointer hhdmOffset) virt ≤
      machine.free.length) :
    ∃ (frame : Frame) (created : List Frame),
      let mapped := vmmMap hhdmOffset (pmmRequestPage hhdmOffset machine).2
        (root.pointer hhdmOffset) virt frame.address flags
      frame ≠ 0#40 ∧ (pmmRequestPage hhdmOffset machine).1 = frame.address ∧
      (∀ address, frame.Holds hhdmOffset address → mapped.memory address = 0#8) ∧
      ∀ next : Machine,
        (∀ address, ¬frame.Holds hhdmOffset address →
          next.memory address = mapped.memory address) →
        next.stack = mapped.stack →
        Backed hhdmOffset root slots virt flags frame created machine next := by
  have available : machine.free ≠ [] := by
    intro empty
    rw [empty] at enough
    simp at enough
  have requested := pmmRequestPage_spec hhdmOffset available
  obtain ⟨frame, nonzero, isFrame, -⟩ := requested.frame usable
  have same := requested.sameTables isFrame space
  have middleSpace := requested.space isFrame space
  have tablesEnough : missingTables hhdmOffset (pmmRequestPage hhdmOffset machine).2.memory
      (root.pointer hhdmOffset) virt ≤ (pmmRequestPage hhdmOffset machine).2.free.length := by
    rw [requested.free, List.length_append, List.length_singleton] at enough
    rw [same.missingTables start]
    omega
  obtain ⟨created, -, mapping⟩ := vmmMap_spec virt frame.address (requested.usable usable)
    middleSpace start valid tablesEnough
  refine ⟨frame, created, nonzero, isFrame, ?_, ?_⟩
  · intro address inFrame
    rw [mapping.byte start (requested.quiet isFrame usable space inFrame), requested.memory,
      isFrame]
    exact fill_inside inFrame
  intro next outside stack
  exact requested.backed isFrame usable space mapping start outside stack

end Nekonix
