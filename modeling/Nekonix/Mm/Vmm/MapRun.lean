import Nekonix.Library.Run
import Nekonix.Mm.Vmm.Backing

/-!
# Runs of mappings

Several mappings on one address space in a row.  A leaf is decided by the last
mapping of its page, a link by the first mapping that goes through it.
-/

namespace Nekonix

open FlatMemory RadixTable Transition

/-- The arguments of a `vmm_map` on a fixed top-level table. -/
structure MapCall where
  virt : U64
  phys : U64
  flags : U64

def MapCall.page (call : MapCall) : BitVec 36 := pageNumber call.virt

/-- The leaf entry a mapping leaves. -/
def MapCall.entry (call : MapCall) : U64 := call.phys ||| call.flags

def MapCall.apply (hhdmOffset pagemap : U64) (machine : Machine) (call : MapCall) : Machine :=
  vmmMap hhdmOffset machine pagemap call.virt call.phys call.flags

/-- The frame is below 2^52, the flags mark it present, and there are frames for
the tables that are missing. -/
structure MapCall.Allowed (hhdmOffset pagemap : U64) (machine : Machine) (call : MapCall) :
    Prop where
  aligned : call.phys &&& entryMask = call.phys
  flags : EntryFlags call.flags
  available : missingTables hhdmOffset machine.memory pagemap call.virt ≤ machine.free.length

/-- One mapping of a run, with the frames it took. -/
structure Mapping where
  call : MapCall
  taken : List Frame

def MapStep (hhdmOffset : U64) (root : Frame) (slots : Set Slot) (machine : Machine)
    (mapping : Mapping) (next : Machine) : Prop :=
  slot4 mapping.call.virt ∈ slots ∧
    Mapped hhdmOffset root slots mapping.call.virt mapping.call.flags mapping.call.entry
      mapping.taken machine next

abbrev MapRun (hhdmOffset : U64) (root : Frame) (slots : Set Slot) (start : Machine)
    (mappings : List Mapping) (finish : Machine) : Prop :=
  Run (MapStep hhdmOffset root slots) start mappings finish

/-- The frames a run took, in order. -/
def takenBy (mappings : List Mapping) : List Frame := mappings.flatMap Mapping.taken

theorem takenBy_snoc (mappings : List Mapping) (mapping : Mapping) :
    takenBy (mappings ++ [mapping]) = takenBy mappings ++ mapping.taken := by
  simp [takenBy]

/-- The first mapping whose walk goes through `path`. -/
def firstAlong (calls : List MapCall) (path : List Slot) : Option MapCall :=
  calls.find? fun call => path <+: tablePath call.virt

theorem firstAlong_snoc (calls : List MapCall) (call : MapCall) (path : List Slot) :
    firstAlong (calls ++ [call]) path =
      (firstAlong calls path).or
        (if path <+: tablePath call.virt then some call else none) := by
  unfold firstAlong
  rw [List.find?_append]
  by_cases through : path <+: tablePath call.virt
  · simp [through]
  · simp [through]

namespace MapRun

variable {hhdmOffset : U64} {root : Frame} {slots : Set Slot} {start finish : Machine}
  {mappings : List Mapping}

theorem usable (run : MapRun hhdmOffset root slots start mappings finish)
    (initially : start.stack.Usable) : finish.stack.Usable := by
  cases run with
  | nil => exact initially
  | snoc _ step => exact step.2.usable

theorem space (run : MapRun hhdmOffset root slots start mappings finish)
    (initially : AddressSpace hhdmOffset start root slots) :
    AddressSpace hhdmOffset finish root slots := by
  cases run with
  | nil => exact initially
  | snoc _ step => exact step.2.space

theorem max (run : MapRun hhdmOffset root slots start mappings finish) :
    finish.stack.max = start.stack.max := by
  induction run with
  | nil => rfl
  | snoc _ step inductionHypothesis => exact step.2.max.trans inductionHypothesis

theorem free (run : MapRun hhdmOffset root slots start mappings finish) :
    start.free = finish.free ++ (takenBy mappings).reverse.map Frame.address := by
  induction run with
  | nil => simp [takenBy]
  | snoc _ step inductionHypothesis =>
      rw [inductionHypothesis, step.2.free, takenBy_snoc]
      simp

theorem kept (run : MapRun hhdmOffset root slots start mappings finish) {path : List Slot}
    (membership : path ∈ within slots) {table : Frame}
    (reached : follow pageFormat (tables hhdmOffset start.memory) root path = some table) :
    follow pageFormat (tables hhdmOffset finish.memory) root path = some table := by
  induction run with
  | nil => exact reached
  | snoc _ step inductionHypothesis =>
      exact step.2.kept path membership table inductionHypothesis

theorem origin (run : MapRun hhdmOffset root slots start mappings finish) {path : List Slot}
    (membership : path ∈ within slots) {table : Frame}
    (reached : follow pageFormat (tables hhdmOffset finish.memory) root path = some table) :
    follow pageFormat (tables hhdmOffset start.memory) root path = some table ∨
      table ∈ takenBy mappings := by
  induction run with
  | nil => exact Or.inl reached
  | snoc _ step inductionHypothesis =>
      rw [takenBy_snoc, List.mem_append]
      rcases step.2.origin path membership table reached with before | new
      · exact (inductionHypothesis before).imp_right Or.inl
      · exact Or.inr (Or.inr new)

/-- The last mapping of a page decides its leaf. -/
theorem leaf (run : MapRun hhdmOffset root slots start mappings finish) {virt : U64}
    (inSlots : slot4 virt ∈ slots) :
    (leafEntry hhdmOffset finish.memory root virt).getD 0#64 =
      ((lastAt MapCall.page (mappings.map Mapping.call) (pageNumber virt)).map
          MapCall.entry).getD
        ((leafEntry hhdmOffset start.memory root virt).getD 0#64) := by
  induction run with
  | nil => rfl
  | @snoc before middle last finish _ step inductionHypothesis =>
      rw [step.2.leaf virt inSlots, inductionHypothesis, List.map_append, List.map_singleton,
        lastAt_snoc]
      by_cases here : pageNumber virt = pageNumber last.call.virt
      · have atPlace : last.call.page = pageNumber virt := here.symm
        rw [if_pos here, if_pos atPlace]
        rfl
      · have elsewhere : ¬last.call.page = pageNumber virt := fun same => here same.symm
        rw [if_neg here, if_neg elsewhere]

theorem inSlots (run : MapRun hhdmOffset root slots start mappings finish) {mapping : Mapping}
    (membership : mapping ∈ mappings) : slot4 mapping.call.virt ∈ slots := by
  induction run with
  | nil => cases membership
  | snoc _ step inductionHypothesis =>
      rcases List.mem_append.mp membership with earlier | here
      · exact inductionHypothesis earlier
      · obtain rfl := List.mem_singleton.mp here
        exact step.1

/-- Mapped pages have a leaf table. -/
theorem reached (run : MapRun hhdmOffset root slots start mappings finish) {mapping : Mapping}
    (membership : mapping ∈ mappings) :
    ∃ table, follow pageFormat (tables hhdmOffset finish.memory) root (tablePath mapping.call.virt) =
      some table := by
  have start4 := run.inSlots membership
  induction run with
  | nil => cases membership
  | snoc _ step inductionHypothesis =>
      rcases List.mem_append.mp membership with earlier | here
      · obtain ⟨table, reached⟩ := inductionHypothesis earlier
        exact ⟨table, step.2.kept _ (tablePath_mem_within start4) table reached⟩
      · obtain rfl := List.mem_singleton.mp here
        obtain ⟨table, reached, -⟩ := Option.map_eq_some_iff.mp step.2.leafSet
        exact ⟨table, reached⟩

theorem linkKept (run : MapRun hhdmOffset root slots start mappings finish) {path : List Slot}
    {index : Slot} (membership : path ++ [index] ∈ within slots) {link : U64}
    (linked : linkEntry hhdmOffset start.memory root path index = some link) :
    linkEntry hhdmOffset finish.memory root path index = some link := by
  induction run with
  | nil => exact linked
  | snoc _ step inductionHypothesis =>
      exact step.2.linkKept path index link membership inductionHypothesis

/-- The first mapping through an absent link decides it. -/
theorem linkNew (run : MapRun hhdmOffset root slots start mappings finish) {path : List Slot}
    {index : Slot} (membership : path ++ [index] ∈ within slots)
    (unlinked : linkEntry hhdmOffset start.memory root path index = none) :
    match firstAlong (mappings.map Mapping.call) (path ++ [index]) with
    | none => linkEntry hhdmOffset finish.memory root path index = none
    | some first => ∃ link, linkEntry hhdmOffset finish.memory root path index = some link ∧
        Carries first.flags link := by
  induction run with
  | nil => exact unlinked
  | @snoc before middle last finish _ step inductionHypothesis =>
      rw [List.map_append, List.map_singleton, firstAlong_snoc]
      cases earlier : firstAlong (before.map Mapping.call) (path ++ [index]) with
      | some first =>
          rw [earlier] at inductionHypothesis
          obtain ⟨link, linked, carries⟩ := inductionHypothesis
          exact ⟨link, step.2.linkKept path index link membership linked, carries⟩
      | none =>
          rw [earlier] at inductionHypothesis
          rw [Option.none_or]
          split_ifs with through
          · exact step.2.linkNew path index membership inductionHypothesis through
          · exact step.2.linkNone path index membership inductionHypothesis through

/-- Bytes outside the tables and the frames taken stay as they are. -/
theorem outside (run : MapRun hhdmOffset root slots start mappings finish) {address : U64}
    (offTaken : ∀ frame ∈ takenBy mappings, ¬frame.Holds hhdmOffset address)
    (offTables : ∀ path ∈ within slots, ∀ table,
      follow pageFormat (tables hhdmOffset start.memory) root path = some table →
      ¬table.Holds hhdmOffset address) :
    finish.memory address = start.memory address := by
  induction run with
  | nil => rfl
  | @snoc before middle last finish earlier step inductionHypothesis =>
      rw [takenBy_snoc] at offTaken
      have offBefore : ∀ frame ∈ takenBy before, ¬frame.Holds hhdmOffset address :=
        fun frame membership => offTaken frame (List.mem_append_left _ membership)
      rw [← inductionHypothesis offBefore]
      apply step.2.outside
      · exact fun frame membership => offTaken frame (List.mem_append_right _ membership)
      · intro path table onPath reached
        rcases MapRun.origin earlier (mem_within_onPath step.1 onPath) reached with old | new
        · exact offTables path (mem_within_onPath step.1 onPath) table old
        · exact offBefore table new

/-- A quiet byte stays quiet. -/
theorem quiet (run : MapRun hhdmOffset root slots start mappings finish) {address : U64}
    (initially : Quiet hhdmOffset root slots start address) :
    Quiet hhdmOffset root slots finish address :=
  run.invariant (fun machine => Quiet hhdmOffset root slots machine address) initially
    fun _ _ _ before step => step.2.quiet before

/-- A link that no mapping goes through stays as it is. -/
theorem linkEntry_apart (run : MapRun hhdmOffset root slots start mappings finish)
    {path : List Slot} {index : Slot} (membership : path ++ [index] ∈ within slots)
    (apart : ∀ mapping ∈ mappings, ¬path ++ [index] <+: tablePath mapping.call.virt) :
    linkEntry hhdmOffset finish.memory root path index =
      linkEntry hhdmOffset start.memory root path index := by
  cases linked : linkEntry hhdmOffset start.memory root path index with
  | some link => exact run.linkKept membership linked
  | none =>
      have none : firstAlong (mappings.map Mapping.call) (path ++ [index]) = none := by
        apply List.find?_eq_none.mpr
        intro call isCall
        obtain ⟨mapping, isMapping, rfl⟩ := List.mem_map.mp isCall
        simpa using apart mapping isMapping
      have new := run.linkNew membership linked
      rw [none] at new
      exact new

/-- A run whose pages lie below some of the slots. -/
theorem restrict {part : Set Slot} (run : MapRun hhdmOffset root slots start mappings finish)
    (subset : part ⊆ slots) (inPart : ∀ mapping ∈ mappings, slot4 mapping.call.virt ∈ part) :
    MapRun hhdmOffset root part start mappings finish := by
  induction run with
  | nil => exact .nil
  | snoc _ step inductionHypothesis =>
      refine (inductionHypothesis fun mapping earlier =>
        inPart mapping (List.mem_append_left _ earlier)).snoc ⟨?_, step.2.restrict subset⟩
      exact inPart _ (List.mem_append_right _ (List.mem_singleton.mpr rfl))

/-- A run of calls is a run of mappings. -/
theorem of_calls {calls : List MapCall} (usable : start.stack.Usable)
    (space : AddressSpace hhdmOffset start root Set.univ)
    (run : Run (guarded (MapCall.apply hhdmOffset (root.pointer hhdmOffset))
      (MapCall.Allowed hhdmOffset (root.pointer hhdmOffset))) start calls finish) :
    ∃ mappings, mappings.map Mapping.call = calls ∧
      MapRun hhdmOffset root Set.univ start mappings finish := by
  induction run with
  | nil => exact ⟨[], rfl, .nil⟩
  | @snoc before middle call finish _ step inductionHypothesis =>
      obtain ⟨mappings, rfl, earlier⟩ := inductionHypothesis
      obtain ⟨allowed, rfl⟩ := step
      obtain ⟨created, -, mapped⟩ := vmmMap_spec call.virt call.phys
        (MapRun.usable earlier usable) (MapRun.space earlier space) (Set.mem_univ _)
        allowed.flags allowed.available
      exact ⟨mappings ++ [⟨call, created⟩], by simp, earlier.snoc ⟨Set.mem_univ _, mapped⟩⟩

end MapRun

/-- The entry of a call with a page-aligned frame. -/
theorem carries_of_aligned {phys : U64} (aligned : phys &&& entryMask = phys) (flags : U64) :
    Carries flags (phys ||| flags) := by
  refine ⟨phys.extractLsb' 12 40, ?_⟩
  rw [← and_entryMask, aligned]

/-- Three free frames are enough for any call. -/
theorem MapCall.Allowed.of_supply {hhdmOffset pagemap : U64} {machine : Machine} {call : MapCall}
    (aligned : call.phys &&& entryMask = call.phys) (valid : EntryFlags call.flags)
    (supply : 3 ≤ machine.free.length) : call.Allowed hhdmOffset pagemap machine :=
  ⟨aligned, valid, (missingTables_le _ _ _ _).trans supply⟩

theorem MapStep.of_supply {hhdmOffset : U64} {root : Frame} {machine : Machine} {call : MapCall}
    (usable : machine.stack.Usable) (space : AddressSpace hhdmOffset machine root Set.univ)
    (valid : EntryFlags call.flags) (supply : 3 ≤ machine.free.length) :
    ∃ taken, MapStep hhdmOffset root Set.univ machine ⟨call, taken⟩
        (call.apply hhdmOffset (root.pointer hhdmOffset) machine) ∧
      machine.free.length ≤
        (call.apply hhdmOffset (root.pointer hhdmOffset) machine).free.length + 3 := by
  have few := missingTables_le hhdmOffset machine.memory (root.pointer hhdmOffset) call.virt
  obtain ⟨taken, taking, mapped⟩ := vmmMap_spec call.virt call.phys usable space
    (Set.mem_univ _) valid (few.trans supply)
  refine ⟨taken, ⟨Set.mem_univ _, mapped⟩, ?_⟩
  rw [mapped.length_free, taking]
  exact Nat.add_le_add_left few _

end Nekonix
