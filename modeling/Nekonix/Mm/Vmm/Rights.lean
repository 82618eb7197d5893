import Nekonix.Mm.Vmm.MapRun
import Nekonix.Mm.Vmm.Refinement

/-!
# Effective rights

The rights of a page are narrowed by every entry of its walk.  `vmm_map` makes
the upper entries with the flags of the first mapping that needs them and never
widens them, so a page has the rights it was mapped with exactly where those
first mappings allow them.
-/

namespace Nekonix

open FlatMemory RadixTable Transition

/-- What an entry, or a walk, allows. -/
structure Rights where
  writable : Bool
  noExecute : Bool
  user : Bool
deriving DecidableEq

/-- The bits an entry has for `VMM_WRITABLE`, `VMM_NX` and `VMM_USER`. -/
def entryRights (entry : U64) : Rights where
  writable := entry.getLsbD 1
  noExecute := entry.getLsbD 63
  user := entry.getLsbD 2

/-- The rights that two entries of a walk leave together. -/
def Rights.narrow (first second : Rights) : Rights where
  writable := first.writable && second.writable
  noExecute := first.noExecute || second.noExecute
  user := first.user && second.user

/-- `upper` does not narrow `lower`. -/
structure Rights.Allows (upper lower : Rights) : Prop where
  writable : lower.writable = true → upper.writable = true
  execute : lower.noExecute = false → upper.noExecute = false
  user : lower.user = true → upper.user = true

/-- The rights of a page: what the processor's walk through the four entries grants. -/
def effectiveRights (hhdmOffset : U64) (memory : Memory) (pagemap virt : U64) : Rights :=
  let pml4Entry := readEntry memory pagemap (pml4Idx virt)
  let pml3Entry := readEntry memory (entryTable hhdmOffset pml4Entry) (pml3Idx virt)
  let pml2Entry := readEntry memory (entryTable hhdmOffset pml3Entry) (pml2Idx virt)
  let pml1Entry := readEntry memory (entryTable hhdmOffset pml2Entry) (pml1Idx virt)
  (entryRights pml4Entry).narrow ((entryRights pml3Entry).narrow
    ((entryRights pml2Entry).narrow (entryRights pml1Entry)))

/-- The three upper steps of a walk: the path so far and the index to follow. -/
def upperSteps (virt : U64) : List (List Slot × Slot) :=
  [([], slot4 virt), ([slot4 virt], slot3 virt), ([slot4 virt, slot3 virt], slot2 virt)]

/-- The flags of an upper entry after some calls: those it has at the start, or
else those of the first call through it. -/
def upperFlags (hhdmOffset : U64) (memory : Memory) (root : Frame) (calls : List MapCall)
    (step : List Slot × Slot) : Option U64 :=
  (linkEntry hhdmOffset memory root step.1 step.2).or
    ((firstAlong calls (step.1 ++ [step.2])).map MapCall.flags)

variable {hhdmOffset : U64} {root : Frame} {slots : Set Slot} {start finish : Machine}
  {mappings : List Mapping} {memory : Memory} {virt : U64}

theorem Frame.address_getLsbD (frame : Frame) {bit : Nat} (outside : bit < 12 ∨ 52 ≤ bit) :
    frame.address.getLsbD bit = false := by
  rw [← frame.address_masked, BitVec.getLsbD_and, entryMask_getLsbD]
  have notField : ¬(12 ≤ bit ∧ bit < 52) := by omega
  simp [notField]

theorem Carries.rights {flags entry : U64} (carries : Carries flags entry) :
    entryRights entry = entryRights flags := by
  obtain ⟨frame, rfl⟩ := carries
  have writable : frame.address.getLsbD 1 = false := frame.address_getLsbD (by decide)
  have noExecute : frame.address.getLsbD 63 = false := frame.address_getLsbD (by decide)
  have user : frame.address.getLsbD 2 = false := frame.address_getLsbD (by decide)
  simp only [entryRights, BitVec.getLsbD_or, writable, noExecute, user, Bool.false_or]

theorem Rights.allows_iff {upper lower : Rights} :
    upper.Allows lower ↔ (lower.writable → upper.writable) ∧
      (upper.noExecute → lower.noExecute) ∧ (lower.user → upper.user) := by
  constructor
  · intro allows
    refine ⟨allows.writable, ?_, allows.user⟩
    intro denied
    by_contra executable
    rw [allows.execute (Bool.eq_false_of_not_eq_true executable)] at denied
    cases denied
  · rintro ⟨writable, execute, user⟩
    refine ⟨writable, ?_, user⟩
    intro executable
    by_contra denied
    rw [execute (Bool.eq_true_of_not_eq_false denied)] at executable
    cases executable

/-- Narrowing keeps the rights that the narrower allows. -/
theorem Rights.narrow_eq_iff {upper lower : Rights} :
    upper.narrow lower = lower ↔ upper.Allows lower := by
  cases lower with
  | mk writable noExecute user =>
      simp only [allows_iff, narrow, Rights.mk.injEq]
      cases writable <;> cases noExecute <;> cases user <;> simp

theorem Rights.narrow_allows {first second lower : Rights} :
    (first.narrow second).Allows lower ↔ first.Allows lower ∧ second.Allows lower := by
  simp only [allows_iff, narrow, Bool.and_eq_true, Bool.or_eq_true]
  tauto

theorem Rights.narrow_assoc (first second third : Rights) :
    (first.narrow second).narrow third = first.narrow (second.narrow third) := by
  simp only [narrow, Bool.and_assoc, Bool.or_assoc]

/-- The entries of a complete walk. -/
theorem effectiveRights_eq {table : Frame}
    (reached : follow pageFormat (tables hhdmOffset memory) root (tablePath virt) = some table) :
    ∃ link4 link3 link2,
      linkEntry hhdmOffset memory root [] (slot4 virt) = some link4 ∧
      linkEntry hhdmOffset memory root [slot4 virt] (slot3 virt) = some link3 ∧
      linkEntry hhdmOffset memory root [slot4 virt, slot3 virt] (slot2 virt) = some link2 ∧
      effectiveRights hhdmOffset memory (root.pointer hhdmOffset) virt =
        (entryRights link4).narrow ((entryRights link3).narrow ((entryRights link2).narrow
          (entryRights ((leafEntry hhdmOffset memory root virt).getD 0#64)))) := by
  have leafTable := reached
  rw [tablePath, follow_cons, Option.bind_eq_some_iff] at reached
  obtain ⟨table3, next4, reached⟩ := reached
  rw [follow_cons, Option.bind_eq_some_iff] at reached
  obtain ⟨table2, next3, reached⟩ := reached
  rw [follow_cons, Option.bind_eq_some_iff] at reached
  obtain ⟨table1, next2, reached⟩ := reached
  cases reached
  have reached3 : follow pageFormat (tables hhdmOffset memory) root [slot4 virt] =
      some table3 := by
    rw [follow_cons, next4]
    rfl
  have reached2 : follow pageFormat (tables hhdmOffset memory) root [slot4 virt, slot3 virt] =
      some table2 := by
    rw [follow_cons, next4, Option.bind_some, follow_cons, next3]
    rfl
  rw [next_eq_some_iff] at next4 next3 next2
  refine ⟨tables hhdmOffset memory root (slot4 virt), tables hhdmOffset memory table3 (slot3 virt),
    tables hhdmOffset memory table2 (slot2 virt), ?_, ?_, ?_, ?_⟩
  · rw [linkEntry, link_of_follow rfl, if_pos next4.1]
  · rw [linkEntry, link_of_follow reached3, if_pos next3.1]
  · rw [linkEntry, link_of_follow reached2, if_pos next2.1]
  · rw [leafEntry, entryAt, leafTable]
    simp only [effectiveRights, pml4Idx_eq, pml3Idx_eq, pml2Idx_eq, pml1Idx_eq,
      readEntry_pointer, entryTable_eq, next4.2, next3.2, next2.2]
    rfl

/-- After a run, an upper entry of a complete walk has the flags of `upperFlags`. -/
theorem MapRun.upperEntry (run : MapRun hhdmOffset root slots start mappings finish)
    {path : List Slot} {index : Slot} (membership : path ++ [index] ∈ within slots) {link : U64}
    (linked : linkEntry hhdmOffset finish.memory root path index = some link) :
    ∃ flags, upperFlags hhdmOffset start.memory root (mappings.map Mapping.call) (path, index) =
      some flags ∧ entryRights link = entryRights flags := by
  unfold Nekonix.upperFlags
  cases before : linkEntry hhdmOffset start.memory root path index with
  | some old =>
      have kept := run.linkKept membership before
      rw [linked] at kept
      cases kept
      exact ⟨link, rfl, rfl⟩
  | none =>
      have created := run.linkNew membership before
      cases first : firstAlong (mappings.map Mapping.call) (path ++ [index]) with
      | none =>
          rw [first] at created
          simp only [linked] at created
          cases created
      | some call =>
          rw [first] at created
          obtain ⟨made, linkedMade, carries⟩ := created
          rw [linked] at linkedMade
          cases linkedMade
          exact ⟨call.flags, rfl, carries.rights⟩

/-- A mapped page has the rights of its last mapping, narrowed by its upper entries. -/
theorem MapRun.effectiveRights (run : MapRun hhdmOffset root slots start mappings finish)
    {call : MapCall}
    (last : lastAt MapCall.page (mappings.map Mapping.call) (pageNumber virt) = some call)
    (carries : Carries call.flags call.entry) :
    ∃ upper : Rights,
      Nekonix.effectiveRights hhdmOffset finish.memory (root.pointer hhdmOffset) virt =
        upper.narrow (entryRights call.flags) ∧
      ∀ lower, upper.Allows lower ↔ ∀ step ∈ upperSteps virt,
        ∀ flags ∈ upperFlags hhdmOffset start.memory root (mappings.map Mapping.call) step,
          (entryRights flags).Allows lower := by
  have place := lastAt_some last
  have membership : call ∈ mappings.map Mapping.call := place.1
  obtain ⟨mapping, inRun, rfl⟩ := List.mem_map.mp membership
  have samePage : pageNumber mapping.call.virt = pageNumber virt := place.2
  have inSlots : slot4 virt ∈ slots := by
    rw [← slot4_of_pageNumber samePage]
    exact run.inSlots inRun
  obtain ⟨table, reached⟩ := run.reached inRun
  rw [(pageNumber_eq_iff.mp samePage).1] at reached
  obtain ⟨link4, link3, link2, linked4, linked3, linked2, walk⟩ := effectiveRights_eq reached
  have leaf : entryRights ((leafEntry hhdmOffset finish.memory root virt).getD 0#64) =
      entryRights mapping.call.flags := by
    rw [run.leaf inSlots, last]
    exact carries.rights
  have path2 : [slot4 virt, slot3 virt] ++ [slot2 virt] ∈ within slots :=
    tablePath_mem_within inSlots
  have path3 : [slot4 virt] ++ [slot3 virt] ∈ within slots := Domain.prefix_mem path2
  have path4 : [] ++ [slot4 virt] ∈ within slots := Domain.prefix_mem path3
  obtain ⟨flags4, upper4, same4⟩ := run.upperEntry path4 linked4
  obtain ⟨flags3, upper3, same3⟩ := run.upperEntry path3 linked3
  obtain ⟨flags2, upper2, same2⟩ := run.upperEntry path2 linked2
  refine ⟨(entryRights link4).narrow ((entryRights link3).narrow (entryRights link2)), ?_, ?_⟩
  · rw [walk, leaf, Rights.narrow_assoc, Rights.narrow_assoc]
  · intro lower
    rw [Rights.narrow_allows, Rights.narrow_allows, same4, same3, same2]
    simp [upperSteps, upper4, upper3, upper2]

end Nekonix
