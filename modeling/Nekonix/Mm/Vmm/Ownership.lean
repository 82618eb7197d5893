import Nekonix.Mm.Vmm.Backing

/-!
# Frames in use

A frame that is neither free nor a table of an address space keeps its bytes
whatever is mapped there: taking frames and mapping pages change tables and the
frames taken, and nothing else.
-/

namespace Nekonix

open FlatMemory RadixTable

variable {hhdmOffset : U64} {kernel : Frame}

/-- The frame is neither free nor one of the kernel's tables. -/
structure InUse (hhdmOffset : U64) (kernel : Frame) (machine : Machine) (frame : Frame) :
    Prop where
  notFree : frame.address ∉ machine.free
  notTable : ∀ path ∈ within (Set.univ : Set Slot),
    follow pageFormat (tables hhdmOffset machine.memory) kernel path ≠ some frame

/-- Every byte of the frame is the same in both memories. -/
def SameFrame (hhdmOffset : U64) (memory other : Memory) (frame : Frame) : Prop :=
  ∀ address, frame.Holds hhdmOffset address → other address = memory address

/-- The direct map has every free frame, and does not wrap there. -/
def DirectlyMapped (hhdmOffset : U64) (machine : Machine) : Prop :=
  ∀ frame : Frame, frame.address ∈ machine.free →
    frame.address.toNat + hhdmOffset.toNat + 4096 ≤ 2 ^ 64

theorem pointer_toNat {frame : Frame}
    (mapped : frame.address.toNat + hhdmOffset.toNat + 4096 ≤ 2 ^ 64) :
    (frame.pointer hhdmOffset).toNat = frame.address.toNat + hhdmOffset.toNat := by
  unfold Frame.pointer higherHalf
  rw [BitVec.toNat_add]
  omega

theorem pointer_ne_zero {frame : Frame} (nonzero : frame ≠ 0#40)
    (mapped : frame.address.toNat + hhdmOffset.toNat + 4096 ≤ 2 ^ 64) :
    frame.pointer hhdmOffset ≠ 0#64 := by
  intro null
  have number := pointer_toNat mapped
  rw [null, frame.address_toNat] at number
  apply nonzero
  apply BitVec.eq_of_toNat_eq
  change frame.toNat = 0
  change 0 = _ at number
  omega

/-- The machine took frames from the free stack and changed only those. -/
structure TakesFrames (hhdmOffset : U64) (taken : List Frame) (before after : Machine) : Prop where
  free : before.free = after.free ++ taken.reverse.map Frame.address
  outside : ∀ address, (∀ frame ∈ taken, ¬frame.Holds hhdmOffset address) →
    after.memory address = before.memory address

/-- A request where a frame is free. -/
theorem pmmRequestPage_takesFrame (hhdmOffset : U64) {machine : Machine}
    (usable : machine.stack.Usable) (available : machine.free ≠ []) :
    ∃ (frame : Frame) (next : Machine),
      pmmRequestPage hhdmOffset machine = (frame.address, next) ∧ frame ≠ 0#40 ∧
      TakesFrames hhdmOffset [frame] machine next := by
  have requested := pmmRequestPage_spec hhdmOffset available
  obtain ⟨frame, nonzero, isFrame, -⟩ := requested.frame usable
  refine ⟨frame, _, Prod.ext isFrame rfl, nonzero, ?_, ?_⟩
  · rw [requested.free, isFrame]
    rfl
  · intro address outside
    exact requested.outside isFrame (outside frame List.mem_cons_self)

namespace TakesFrames

variable {taken : List Frame} {before after : Machine}

theorem trans {middle : Machine} {further : List Frame}
    (first : TakesFrames hhdmOffset taken before middle)
    (second : TakesFrames hhdmOffset further middle after) :
    TakesFrames hhdmOffset (taken ++ further) before after := by
  constructor
  · rw [first.free, second.free, List.reverse_append, List.map_append, List.append_assoc]
  · intro address outside
    rw [second.outside address fun frame inTaken =>
        outside frame (List.mem_append_right _ inTaken),
      first.outside address fun frame inTaken => outside frame (List.mem_append_left _ inTaken)]

/-- What is then written in the frames taken does not count. -/
theorem write (takes : TakesFrames hhdmOffset taken before after) (memory : Memory)
    (outside : ∀ address, (∀ frame ∈ taken, ¬frame.Holds hhdmOffset address) →
      memory address = after.memory address) :
    TakesFrames hhdmOffset taken before { after with memory } := by
  refine ⟨takes.free, ?_⟩
  intro address off
  exact (outside address off).trans (takes.outside address off)

theorem length_free (takes : TakesFrames hhdmOffset taken before after) :
    before.free.length = after.free.length + taken.length := by
  rw [takes.free, List.length_append, List.length_map, List.length_reverse]

theorem taken_free (takes : TakesFrames hhdmOffset taken before after) {frame : Frame}
    (membership : frame ∈ taken) : frame.address ∈ before.free := by
  rw [takes.free, List.mem_append, List.mem_map]
  exact Or.inr ⟨frame, List.mem_reverse.mpr membership, rfl⟩

theorem still_free (takes : TakesFrames hhdmOffset taken before after) {page : U64}
    (free : page ∈ after.free) : page ∈ before.free := by
  rw [takes.free]
  exact List.mem_append_left _ free

theorem usable (takes : TakesFrames hhdmOffset taken before after)
    (usable : before.stack.Usable) : after.stack.Usable := by
  refine ⟨fun page free => usable.frame page (takes.still_free free), ?_⟩
  have nodup := usable.nodup
  change before.free.Nodup at nodup
  rw [takes.free] at nodup
  exact (List.nodup_append.mp nodup).1

theorem taken_notFree (takes : TakesFrames hhdmOffset taken before after)
    (usable : before.stack.Usable) {frame : Frame} (membership : frame ∈ taken) :
    frame.address ∉ after.free := by
  have nodup := usable.nodup
  change before.free.Nodup at nodup
  rw [takes.free] at nodup
  intro free
  exact (List.nodup_append.mp nodup).2.2 _ free _
    (List.mem_map_of_mem (List.mem_reverse.mpr membership)) rfl

theorem sameTables (takes : TakesFrames hhdmOffset taken before after)
    (space : AddressSpace hhdmOffset before kernel Set.univ) :
    SameTables hhdmOffset kernel Set.univ before.memory after.memory := by
  intro path membership table reached address inTable
  apply takes.outside
  intro frame inTaken inFrame
  apply space.apart path membership table reached
  rw [inTable.unique inFrame]
  exact takes.taken_free inTaken

/-- The frames taken are in use from then on. -/
theorem inUse_taken (takes : TakesFrames hhdmOffset taken before after)
    (usable : before.stack.Usable) (space : AddressSpace hhdmOffset before kernel Set.univ)
    {frame : Frame} (membership : frame ∈ taken) : InUse hhdmOffset kernel after frame := by
  refine ⟨takes.taken_notFree usable membership, ?_⟩
  intro path pathIn reached
  rw [(takes.sameTables space).follow pathIn] at reached
  exact space.apart path pathIn frame reached (takes.taken_free membership)

end TakesFrames

/-- The machine took frames, and otherwise changed tables below `root` only. -/
structure Touched (hhdmOffset : U64) (root : Frame) (taken : List Frame) (machine next : Machine) :
    Prop where
  free : machine.free = next.free ++ taken.reverse.map Frame.address
  max : next.stack.max = machine.stack.max
  space : AddressSpace hhdmOffset next root Set.univ
  origin : ∀ path ∈ within (Set.univ : Set Slot), ∀ table,
    follow pageFormat (tables hhdmOffset next.memory) root path = some table →
    follow pageFormat (tables hhdmOffset machine.memory) root path = some table ∨ table ∈ taken
  outside : ∀ address, (∀ frame ∈ taken, ¬frame.Holds hhdmOffset address) →
    (∀ path ∈ within (Set.univ : Set Slot), ∀ table,
      follow pageFormat (tables hhdmOffset machine.memory) root path = some table →
      ¬table.Holds hhdmOffset address) →
    next.memory address = machine.memory address

theorem TakesFrames.touched {taken : List Frame} {before after : Machine} {root : Frame}
    (takes : TakesFrames hhdmOffset taken before after)
    (space : AddressSpace hhdmOffset before root Set.univ)
    (max : after.stack.max = before.stack.max) :
    Touched hhdmOffset root taken before after := by
  have same := takes.sameTables space
  refine ⟨takes.free, max, same.space space fun page free => takes.still_free free, ?_, ?_⟩
  · intro path membership table reached
    rw [same.follow membership] at reached
    exact Or.inl reached
  · exact fun address outside _ => takes.outside address outside

theorem Mapped.touched {root : Frame} {virt flags entry : U64} {taken : List Frame}
    {machine next : Machine}
    (mapped : Mapped hhdmOffset root Set.univ virt flags entry taken machine next) :
    Touched hhdmOffset root taken machine next where
  free := mapped.free
  max := mapped.max
  space := mapped.space
  origin := mapped.origin
  outside := by
    intro address offTaken offTables
    apply mapped.outside address offTaken
    intro path table onPath
    exact offTables path (mem_within_onPath (Set.mem_univ _) onPath) table

namespace Touched

variable {root : Frame} {taken further : List Frame} {machine middle next : Machine}

theorem refl (space : AddressSpace hhdmOffset machine root Set.univ) :
    Touched hhdmOffset root [] machine machine :=
  ⟨by simp, rfl, space, fun _ _ _ reached => Or.inl reached, fun _ _ _ => rfl⟩

/-- As far as the free stack goes, frames were taken. -/
theorem takes (touched : Touched hhdmOffset root taken machine next) :
    TakesFrames hhdmOffset taken machine { next with memory := machine.memory } :=
  ⟨touched.free, fun _ _ => rfl⟩

theorem usable (touched : Touched hhdmOffset root taken machine next)
    (usable : machine.stack.Usable) : next.stack.Usable :=
  touched.takes.usable usable

theorem still_free (touched : Touched hhdmOffset root taken machine next) {page : U64}
    (free : page ∈ next.free) : page ∈ machine.free :=
  touched.takes.still_free free

theorem trans (first : Touched hhdmOffset root taken machine middle)
    (second : Touched hhdmOffset root further middle next) :
    Touched hhdmOffset root (taken ++ further) machine next where
  free := by
    rw [first.free, second.free, List.reverse_append, List.map_append, List.append_assoc]
  max := second.max.trans first.max
  space := second.space
  origin := by
    intro path membership table reached
    rcases second.origin path membership table reached with before | new
    · rcases first.origin path membership table before with early | earlier
      · exact Or.inl early
      · exact Or.inr (List.mem_append_left _ earlier)
    · exact Or.inr (List.mem_append_right _ new)
  outside := by
    intro address offTaken offTables
    rw [second.outside address, first.outside address]
    · exact fun frame membership => offTaken frame (List.mem_append_left _ membership)
    · exact offTables
    · exact fun frame membership => offTaken frame (List.mem_append_right _ membership)
    · intro path membership table reached
      rcases first.origin path membership table reached with before | new
      · exact offTables path membership table before
      · exact offTaken table (List.mem_append_left _ new)

/-- More frames taken, and written together with those taken before. -/
theorem more {fresh : List Frame} (touched : Touched hhdmOffset root taken machine middle)
    (free : middle.free = next.free ++ fresh.reverse.map Frame.address)
    (max : next.stack.max = middle.stack.max)
    (same : SameTables hhdmOffset root Set.univ middle.memory next.memory)
    (outside : ∀ address, (∀ frame ∈ taken ++ fresh, ¬frame.Holds hhdmOffset address) →
      next.memory address = middle.memory address) :
    Touched hhdmOffset root (taken ++ fresh) machine next where
  free := by
    rw [touched.free, free, List.reverse_append, List.map_append, List.append_assoc]
  max := max.trans touched.max
  space := by
    refine same.space touched.space ?_
    intro page membership
    rw [free]
    exact List.mem_append_left _ membership
  origin := by
    intro path membership table reached
    rw [same.follow membership] at reached
    rcases touched.origin path membership table reached with before | new
    · exact Or.inl before
    · exact Or.inr (List.mem_append_left _ new)
  outside := by
    intro address offTaken offTables
    rw [outside address offTaken, touched.outside address _ offTables]
    exact fun frame membership => offTaken frame (List.mem_append_left _ membership)

/-- A frame in use stays in use and keeps its bytes. -/
theorem inUse (touched : Touched hhdmOffset root taken machine next) {frame : Frame}
    (inUse : InUse hhdmOffset root machine frame) :
    InUse hhdmOffset root next frame ∧ SameFrame hhdmOffset machine.memory next.memory frame := by
  have notTaken : ∀ other ∈ taken, other ≠ frame := by
    rintro other membership rfl
    exact inUse.notFree (touched.takes.taken_free membership)
  refine ⟨⟨fun free => inUse.notFree (touched.still_free free), ?_⟩, ?_⟩
  · intro path membership reached
    rcases touched.origin path membership frame reached with before | new
    · exact inUse.notTable path membership before
    · exact notTaken frame new rfl
  · intro address inFrame
    apply touched.outside
    · intro other membership inOther
      exact notTaken other membership (inOther.unique inFrame)
    · intro path membership table reached inTable
      rw [inTable.unique inFrame] at reached
      exact inUse.notTable path membership reached

end Touched

end Nekonix
