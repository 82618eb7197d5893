import Nekonix.Mm.Vmm.Ownership

/-!
# Frames drawn from the stack

The functions that map pages only take frames from the top of the free stack, whatever
they find in memory.
-/

namespace Nekonix

variable {hhdmOffset : U64} {before middle after : Machine}

/-- Nothing but frames off the top of the free stack is gone. -/
structure Drawn (before after : Machine) : Prop where
  free : ∃ taken, before.free = after.free ++ taken
  max : after.stack.max = before.stack.max

namespace Drawn

theorem of_stack (same : after.stack = before.stack) : Drawn before after := by
  refine ⟨⟨[], ?_⟩, congrArg PmmStack.max same⟩
  rw [Machine.free, Machine.free, same, List.append_nil]

theorem trans (first : Drawn before middle) (second : Drawn middle after) : Drawn before after := by
  obtain ⟨taken, free⟩ := first.free
  obtain ⟨further, free'⟩ := second.free
  refine ⟨⟨further ++ taken, ?_⟩, second.max.trans first.max⟩
  rw [free, free', List.append_assoc]

theorem mem (drawn : Drawn before after) {page : U64} (free : page ∈ after.free) :
    page ∈ before.free := by
  obtain ⟨taken, same⟩ := drawn.free
  rw [same]
  exact List.mem_append_left _ free

theorem usable (drawn : Drawn before after) (usable : before.stack.Usable) :
    after.stack.Usable := by
  refine ⟨fun page free => usable.frame page (drawn.mem free), ?_⟩
  obtain ⟨taken, same⟩ := drawn.free
  have nodup : before.free.Nodup := usable.nodup
  rw [same] at nodup
  exact (List.nodup_append.mp nodup).1

theorem directlyMapped (drawn : Drawn before after) (mapped : DirectlyMapped hhdmOffset before) :
    DirectlyMapped hhdmOffset after := fun frame free => mapped frame (drawn.mem free)

theorem request (hhdmOffset : U64) (machine : Machine) :
    Drawn machine (pmmRequestPage hhdmOffset machine).2 := by
  by_cases empty : machine.free = []
  · rw [pmmRequestPage_empty empty]
    exact of_stack rfl
  · have requested := pmmRequestPage_spec hhdmOffset empty
    exact ⟨⟨_, requested.free⟩, requested.max⟩

theorem requestTable (hhdmOffset : U64) (machine : Machine) (table idx flags : U64) :
    Drawn machine (requestTable hhdmOffset machine table idx flags) := by
  unfold Nekonix.requestTable
  split_ifs
  · exact (request hhdmOffset machine).trans (of_stack rfl)
  · exact of_stack rfl

theorem map (hhdmOffset : U64) (machine : Machine) (pagemap virt phys flags : U64) :
    Drawn machine (vmmMap hhdmOffset machine pagemap virt phys flags) :=
  (((requestTable ..).trans (requestTable ..)).trans (requestTable ..)).trans (of_stack rfl)

theorem newPagemap (hhdmOffset kernelPagemap : U64) (machine : Machine) :
    Drawn machine (vmmNewPagemap hhdmOffset kernelPagemap machine).2 := by
  unfold vmmNewPagemap
  dsimp only
  split_ifs
  · exact request hhdmOffset machine
  · exact (request hhdmOffset machine).trans (of_stack rfl)

end Drawn

end Nekonix
