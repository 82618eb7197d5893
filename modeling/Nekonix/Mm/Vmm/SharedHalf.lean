import Nekonix.Library.Run
import Nekonix.Mm.Vmm.Cleared
import Nekonix.Mm.Vmm.Levels

/-!
# The shared kernel half

A new pagemap copies the kernel's top-level entries.  Whatever is mapped and
unmapped later, through any pagemap, a top-level entry that was present then stays
as it is in both, so that both lead to the same tables.
-/

namespace Nekonix

open FlatMemory RadixTable Transition

/-- The memory and the pagemaps that `vmm_new_pagemap` has returned. -/
structure Pagemaps where
  machine : Machine
  created : List U64

/-- A call of the page-table functions. -/
inductive PagemapCall where
  | newPagemap
  | map (pagemap virt phys flags : U64)
  | unmap (pagemap virt : U64)

def pagemapCall (hhdmOffset kernelPagemap : U64) (pagemaps : Pagemaps) : PagemapCall → Pagemaps
  | .newPagemap =>
      let (pagemap, machine) := vmmNewPagemap hhdmOffset kernelPagemap pagemaps.machine
      { machine
        created := if pagemap = 0#64 then pagemaps.created else pagemap :: pagemaps.created }
  | .map pagemap virt phys flags =>
      { pagemaps with machine := vmmMap hhdmOffset pagemaps.machine pagemap virt phys flags }
  | .unmap pagemap virt =>
      { pagemaps with machine := vmmUnmap hhdmOffset pagemaps.machine pagemap virt }

/-- Memory is available, and mappings and unmappings name the kernel's pagemap or a
created one. -/
def PagemapCall.Allowed (hhdmOffset kernelPagemap : U64) (pagemaps : Pagemaps) :
    PagemapCall → Prop
  | .newPagemap => pagemaps.machine.free ≠ []
  | .map pagemap virt _ flags =>
      pagemap ∈ kernelPagemap :: pagemaps.created ∧ EntryFlags flags ∧
        missingTables hhdmOffset pagemaps.machine.memory pagemap virt ≤
          pagemaps.machine.free.length
  | .unmap pagemap _ => pagemap ∈ kernelPagemap :: pagemaps.created

/-- Calls in any order on any of the pagemaps. -/
abbrev PagemapRun (hhdmOffset kernelPagemap : U64) :
    Pagemaps → List PagemapCall → Pagemaps → Prop :=
  Run (guarded (pagemapCall hhdmOffset kernelPagemap)
    (PagemapCall.Allowed hhdmOffset kernelPagemap))

variable {hhdmOffset : U64} {kernel : Frame} {pagemaps finish : Pagemaps}
  {level : Frame → Option Nat} {calls : List PagemapCall}

/-- The pagemaps are tables of level 0. -/
structure Rooted (hhdmOffset : U64) (kernel : Frame) (level : Frame → Option Nat)
    (pagemaps : Pagemaps) : Prop where
  levels : Levels hhdmOffset level pagemaps.machine
  kernel : level kernel = some 0
  created : ∀ pagemap ∈ pagemaps.created, ∃ root : Frame,
    pagemap = root.pointer hhdmOffset ∧ level root = some 0

theorem Rooted.root (rooted : Rooted hhdmOffset kernel level pagemaps) {pagemap : U64}
    (membership : pagemap ∈ kernel.pointer hhdmOffset :: pagemaps.created) :
    ∃ root : Frame, pagemap = root.pointer hhdmOffset ∧ level root = some 0 := by
  rcases List.mem_cons.mp membership with isKernel | created
  · exact ⟨kernel, isKernel, rooted.kernel⟩
  · exact rooted.created pagemap created

/-- The pagemaps keep their level. -/
theorem Rooted.evolved {machine : Machine} {later : Frame → Option Nat}
    (rooted : Rooted hhdmOffset kernel level pagemaps)
    (evolved : Evolved hhdmOffset level later pagemaps.machine machine) :
    Rooted hhdmOffset kernel later { pagemaps with machine } where
  levels := evolved.levels
  kernel := evolved.grown kernel 0 rooted.kernel
  created := by
    intro pagemap membership
    obtain ⟨root, isRoot, atRoot⟩ := rooted.created pagemap membership
    exact ⟨root, isRoot, evolved.grown root 0 atRoot⟩

/-- The call of `vmm_new_pagemap` when it returns a pagemap. -/
theorem Rooted.made {pagemap : Frame} {machine : Machine}
    (rooted : Rooted hhdmOffset kernel level pagemaps)
    (made : NewPagemap hhdmOffset kernel pagemaps.machine pagemap machine) :
    Rooted hhdmOffset kernel (Function.update level pagemap (some 0))
      ⟨machine, pagemap.pointer hhdmOffset :: pagemaps.created⟩ := by
  have kept := rooted.evolved (made.evolved rooted.levels rooted.kernel)
  refine ⟨kept.levels, kept.kernel, ?_⟩
  intro other membership
  rcases List.mem_cons.mp membership with rfl | earlier
  · exact ⟨pagemap, rfl, Function.update_self ..⟩
  · exact kept.created other earlier

theorem Rooted.call {next : Pagemaps} {call : PagemapCall}
    (rooted : Rooted hhdmOffset kernel level pagemaps)
    (step : guarded (pagemapCall hhdmOffset (kernel.pointer hhdmOffset))
      (PagemapCall.Allowed hhdmOffset (kernel.pointer hhdmOffset)) pagemaps call next) :
    ∃ later, Rooted hhdmOffset kernel later next ∧
      Evolved hhdmOffset level later pagemaps.machine next.machine := by
  obtain ⟨allowed, rfl⟩ := step
  cases call with
  | newPagemap =>
      have taken := rooted.levels.taken kernel 0 rooted.kernel
      by_cases null : (vmmNewPagemap hhdmOffset (kernel.pointer hhdmOffset)
          pagemaps.machine).1 = 0#64
      · have evolved := rooted.levels.request allowed
        have requested : pagemapCall hhdmOffset (kernel.pointer hhdmOffset) pagemaps .newPagemap =
            { pagemaps with machine := (pmmRequestPage hhdmOffset pagemaps.machine).2 } := by
          simp only [pagemapCall, null, if_pos]
          rw [vmmNewPagemap_null null]
        rw [requested]
        exact ⟨level, rooted.evolved evolved, evolved⟩
      · obtain ⟨pagemap, isPagemap, made⟩ := vmmNewPagemap_spec hhdmOffset rooted.levels.usable
          allowed taken null
        refine ⟨_, ?_, made.evolved rooted.levels rooted.kernel⟩
        simp only [pagemapCall, if_neg null]
        rw [isPagemap]
        exact rooted.made made
  | map pagemap virt phys flags =>
      obtain ⟨membership, valid, available⟩ := allowed
      obtain ⟨root, rfl, atRoot⟩ := rooted.root membership
      obtain ⟨later, evolved⟩ := rooted.levels.map atRoot virt phys valid available
      exact ⟨later, rooted.evolved evolved, evolved⟩
  | unmap pagemap virt =>
      obtain ⟨root, rfl, atRoot⟩ := rooted.root allowed
      have evolved := rooted.levels.unmap atRoot virt
      exact ⟨level, rooted.evolved evolved, evolved⟩

theorem Rooted.run (rooted : Rooted hhdmOffset kernel level pagemaps)
    (run : PagemapRun hhdmOffset (kernel.pointer hhdmOffset) pagemaps calls finish) :
    ∃ later, Rooted hhdmOffset kernel later finish ∧
      Evolved hhdmOffset level later pagemaps.machine finish.machine := by
  induction run with
  | nil => exact ⟨level, rooted, rooted.levels.unchanged⟩
  | snoc _ step inductionHypothesis =>
      obtain ⟨between, rootedBetween, first⟩ := inductionHypothesis
      obtain ⟨later, rootedLater, second⟩ := rootedBetween.call step
      exact ⟨later, rootedLater, first.trans second⟩

/-- Pagemaps with the same top-level entry agree below it. -/
theorem virtToPhys_of_topEntry {memory : Memory} {root other : Frame} {virt : U64}
    (same : tables hhdmOffset memory root (slot4 virt) =
      tables hhdmOffset memory other (slot4 virt)) :
    virtToPhys hhdmOffset memory (root.pointer hhdmOffset) virt =
      virtToPhys hhdmOffset memory (other.pointer hhdmOffset) virt := by
  unfold virtToPhys
  rw [pml4Idx_eq, readEntry_pointer, readEntry_pointer, same]

/-- Where the kernel's pagemap has a top-level entry when a pagemap is made, the
kernel and the pagemap agree on all translations ever after. -/
theorem kernel_half_stays_shared {machine next : Machine} {before : Pagemaps}
    {earlier later : List PagemapCall} {pagemap virt : U64}
    (usable : machine.stack.Usable) (space : AddressSpace hhdmOffset machine kernel Set.univ)
    (first : PagemapRun hhdmOffset (kernel.pointer hhdmOffset) ⟨machine, []⟩ earlier before)
    (available : before.machine.free ≠ [])
    (made : vmmNewPagemap hhdmOffset (kernel.pointer hhdmOffset) before.machine = (pagemap, next))
    (nonnull : pagemap ≠ 0#64)
    (second : PagemapRun hhdmOffset (kernel.pointer hhdmOffset)
      ⟨next, pagemap :: before.created⟩ later finish)
    (upper : 256 ≤ (pml4Idx virt).toNat)
    (present : ¬notPresent (readEntry before.machine.memory (kernel.pointer hhdmOffset)
      (pml4Idx virt))) :
    virtToPhys hhdmOffset finish.machine.memory pagemap virt =
      virtToPhys hhdmOffset finish.machine.memory (kernel.pointer hhdmOffset) virt := by
  obtain ⟨start, levels, atKernel⟩ := space.levels usable
  have started : Rooted hhdmOffset kernel start ⟨machine, []⟩ :=
    ⟨levels, atKernel, fun _ membership => (List.not_mem_nil membership).elim⟩
  obtain ⟨level, rooted, -⟩ := started.run first
  obtain ⟨root, rfl, isNew⟩ := vmmNewPagemap_made rooted.levels.usable available
    (rooted.levels.taken kernel 0 rooted.kernel) made nonnull
  have atRoot : Function.update level root (some 0) root = some 0 := Function.update_self ..
  have rootedNext := rooted.made isNew
  obtain ⟨_, -, ran⟩ := rootedNext.run second
  rw [pml4Idx_eq] at upper present
  rw [notPresent_eq, readEntry_pointer, Bool.not_eq_false] at present
  have upperSlot : 256 ≤ (slot4 virt).toNat := by
    rwa [BitVec.toNat_setWidth, Nat.mod_eq_of_lt (by omega)] at upper
  have kernelKept := (isNew.evolved rooted.levels rooted.kernel).links kernel (slot4 virt) 0
    rooted.kernel (by decide) present
  have shared := isNew.entries (slot4 virt)
  rw [if_pos upperSlot] at shared
  apply virtToPhys_of_topEntry
  have rootKept := ran.links root (slot4 virt) 0 atRoot (by decide) (by rw [shared]; exact present)
  have kernelLater := ran.links kernel (slot4 virt) 0 rootedNext.kernel (by decide)
    (by rw [kernelKept]; exact present)
  rw [rootKept, kernelLater, shared, kernelKept]

/-! A mapping in the kernel's half -/

/-- The kernel has mapped the page at the start of its half. -/
def kernelMapped : Machine :=
  vmmMap 0#64 (.cleared 9) (Frame.pointer 0#64 1#40) 0xffff800000000000#64 0x5000#64 vmmPresent

theorem kernelMapped_spec :
    kernelMapped.stack.Usable ∧ kernelMapped.free ≠ [] ∧ Frame.address 1#40 ∉ kernelMapped.free ∧
      ¬notPresent (readEntry kernelMapped.memory (Frame.pointer 0#64 1#40)
        (pml4Idx 0xffff800000000000#64)) := by
  have space : AddressSpace 0#64 (.cleared 9) 1#40 Set.univ := Machine.addressSpace_cleared (by decide)
  have missing := missingTables_le 0#64 (Machine.cleared 9).memory (Frame.pointer 0#64 1#40)
    0xffff800000000000#64
  have count : (Machine.cleared 9).free.length = 9 := by
    rw [PmmStack.length_frames]
    rfl
  obtain ⟨created, length, mapped⟩ := vmmMap_spec 0xffff800000000000#64 0x5000#64
    (Machine.usable_cleared (by decide)) space (Set.mem_univ _)
    (⟨rfl, rfl⟩ : EntryFlags vmmPresent) (by omega)
  refine ⟨mapped.usable, ?_, ?_, ?_⟩
  · have left := mapped.length_free
    apply List.ne_nil_of_length_pos
    change 0 < (vmmMap _ _ _ _ _ _).free.length
    omega
  · exact mapped.space.apart [] nil_mem_within 1#40 rfl
  · have upper : 256 ≤ (slot4 0xffff800000000000#64).toNat := by decide
    have shares := sharesTables_of_leafEntry upper mapped.leafSet
    rw [notPresent_eq, pml4Idx_eq, readEntry_pointer, Bool.not_eq_false]
    exact shares.2

theorem kernel_half_stays_shared_mapped :
    ∃ pagemap next, vmmNewPagemap 0#64 (Frame.pointer 0#64 1#40) kernelMapped = (pagemap, next) ∧
      virtToPhys 0#64 (vmmUnmap 0#64 next pagemap 0xffff800000000000#64).memory pagemap
          0xffff800000000000#64 =
        virtToPhys 0#64 (vmmUnmap 0#64 next pagemap 0xffff800000000000#64).memory
          (Frame.pointer 0#64 1#40) 0xffff800000000000#64 := by
  have usable : (Machine.cleared 9).stack.Usable := Machine.usable_cleared (by decide)
  have space : AddressSpace 0#64 (.cleared 9) 1#40 Set.univ := Machine.addressSpace_cleared (by decide)
  have enough : missingTables 0#64 (Machine.cleared 9).memory (Frame.pointer 0#64 1#40)
      0xffff800000000000#64 ≤ (Machine.cleared 9).free.length :=
    (missingTables_le _ _ _ _).trans (by rw [PmmStack.length_frames]; decide)
  have first : PagemapRun 0#64 (Frame.pointer 0#64 1#40) ⟨.cleared 9, []⟩
      [.map (Frame.pointer 0#64 1#40) 0xffff800000000000#64 0x5000#64 vmmPresent]
      ⟨kernelMapped, []⟩ :=
    .single ⟨⟨List.mem_cons_self .., ⟨rfl, rfl⟩, enough⟩, rfl⟩
  obtain ⟨mappedUsable, available, kernelTaken, present⟩ := kernelMapped_spec
  obtain ⟨pagemap, next, made, nonnull, -⟩ := vmmNewPagemap_identity mappedUsable available
    kernelTaken
  have second : PagemapRun 0#64 (Frame.pointer 0#64 1#40) ⟨next, [pagemap.pointer 0#64]⟩
      [.unmap (pagemap.pointer 0#64) 0xffff800000000000#64]
      ⟨vmmUnmap 0#64 next (pagemap.pointer 0#64) 0xffff800000000000#64, [pagemap.pointer 0#64]⟩ :=
    .single ⟨List.mem_cons_of_mem _ (List.mem_cons_self ..), rfl⟩
  have upper : 256 ≤ (pml4Idx 0xffff800000000000#64).toNat := by decide
  have shared := kernel_half_stays_shared usable space first available made nonnull second upper
    present
  exact ⟨pagemap.pointer 0#64, next, made, shared⟩

end Nekonix
