import Mathlib.Data.List.Induction
import Nekonix.Mm.Liballoc.Free
import Nekonix.Mm.Liballoc.Malloc

/-!
# The pages that the heap holds

The calls for pages tell which pages the heap holds.  They are those of its arenas, and each is
given back at most once, with the count that it came with.
-/

namespace Nekonix

/-- The pages held after a call. -/
def PageCall.after (held : List (U64 × U32)) : PageCall → List (U64 × U32)
  | .alloc pages ptr => if ptr = 0#64 then held else held ++ [(ptr, pages)]
  | .free ptr pages => held.erase (ptr, pages)

/-- The pages held after some calls. -/
def heldPages (calls : List PageCall) : List (U64 × U32) := calls.foldl PageCall.after []

/-- Only pages that are held are given back. -/
def PageCall.Valid (held : List (U64 × U32)) : PageCall → Prop
  | .alloc _ _ => True
  | .free ptr pages => (ptr, pages) ∈ held

/-- Every call is valid where it is made. -/
def ValidPages (calls : List PageCall) : Prop :=
  ∀ earlier call later, calls = earlier ++ call :: later → call.Valid (heldPages earlier)

/-- The pages to come do not wrap and lie beside all that are held. -/
def FreshPages (heap : Liballoc) (reqSize : U64) : Prop :=
  heap.supply.headD 0#64 ≠ 0#64 →
    (heap.supply.headD 0#64).toNat + (pagesFor reqSize).toNat * 4096 ≤ 2 ^ 64 ∧
    ∀ span ∈ heldPages heap.pageCalls,
      (heap.supply.headD 0#64).toNat + (pagesFor reqSize).toNat * 4096 ≤ span.1.toNat ∨
        span.1.toNat + span.2.toNat * 4096 ≤ (heap.supply.headD 0#64).toNat

/-! The log of the calls grows. -/

theorem Searched.entered {heap : Liballoc} {arenas : List Arena} {reqSize : U64}
    {result : U64 × Liballoc} (searched : Searched heap arenas reqSize result) :
    heap.pageCalls <+: result.2.pageCalls := by
  cases searched with
  | placed _ _ pages _ _ => exact ⟨[], (List.append_nil _).trans (congrArg Prod.snd pages).symm⟩
  | grown _ _ _ _ pages _ _ => exact ⟨_, (congrArg Prod.snd pages).symm⟩
  | refused _ _ _ _ pages _ => exact ⟨_, (congrArg Prod.snd pages).symm⟩

theorem Returned.entered {heap after : Liballoc} {arenas further : List Arena}
    (returned : Returned heap after arenas further) : heap.pageCalls <+: after.pageCalls := by
  cases returned with
  | none _ pages => exact ⟨[], (List.append_nil _).trans (congrArg Prod.snd pages).symm⟩
  | arena _ pages => exact ⟨_, (congrArg Prod.snd pages).symm⟩

/-- The pages held are those of the arenas. -/
structure Accounted (heap : Liballoc) (arenas : List Arena) : Prop where
  held : (heldPages heap.pageCalls).Perm (spans arenas)
  valid : ValidPages heap.pageCalls

variable {heap after : Liballoc} {reqSize ptr : U64} {piece : Piece} {arena : Arena}
  {arenas further : List Arena} {held : List (U64 × U32)} {calls : List PageCall}
  {call : PageCall} {result : U64 × Liballoc}

theorem heldPages_append : heldPages (calls ++ [call]) = call.after (heldPages calls) := by
  simp [heldPages]

theorem mem_of_heldPages {span : U64 × U32} (member : span ∈ heldPages calls) :
    PageCall.alloc span.2 span.1 ∈ calls := by
  induction calls using List.reverseRec with
  | nil => cases member
  | append_singleton earlier last inductionHypothesis =>
      rw [heldPages_append] at member
      cases last with
      | alloc pages ptr =>
          rw [PageCall.after] at member
          split_ifs at member with isNull
          · exact List.mem_append_left _ (inductionHypothesis member)
          · rcases List.mem_append.mp member with old | isNew
            · exact List.mem_append_left _ (inductionHypothesis old)
            · rw [List.mem_singleton.mp isNew]
              exact List.mem_append_right _ (List.mem_singleton_self _)
      | free ptr pages =>
          exact List.mem_append_left _ (inductionHypothesis (List.mem_of_mem_erase member))

theorem ValidPages.snoc (valid : ValidPages calls) (isValid : call.Valid (heldPages calls)) :
    ValidPages (calls ++ [call]) := by
  intro earlier last later isCalls
  rcases List.eq_nil_or_concat later with rfl | ⟨init, final, rfl⟩
  · obtain ⟨rfl, isLast⟩ := List.append_inj' isCalls rfl
    exact List.singleton_inj.mp isLast ▸ isValid
  · rw [List.concat_eq_append, ← List.cons_append, ← List.append_assoc] at isCalls
    exact valid earlier last init (List.append_inj' isCalls rfl).1

namespace Accounted

/-- Pages that no held ones overlap may follow the arenas. -/
theorem pageFor (accounted : Accounted heap arenas) (fresh : FreshPages heap reqSize)
    (nonnull : heap.supply.headD 0#64 ≠ 0#64) :
    PageFor arenas (heap.supply.headD 0#64) (pagesFor reqSize) := by
  obtain ⟨noWrap, beside⟩ := fresh nonnull
  refine ⟨nonnull, noWrap, fun arena member => ?_⟩
  have span : (arena.maj, arena.pages) ∈ spans arenas := List.mem_map_of_mem member
  have apart := beside _ (accounted.held.mem_iff.mpr span)
  unfold Arena.Beside Arena.stop
  dsimp only at apart ⊢
  exact apart

theorem supplied (accounted : Accounted heap arenas) (fresh : FreshPages heap reqSize) :
    PagesSupplied heap arenas reqSize :=
  fun _ nonnull => accounted.pageFor fresh nonnull

theorem congr (accounted : Accounted heap arenas) (pages : after.pages = heap.pages)
    (sameSpans : spans further = spans arenas) : Accounted after further := by
  have sameCalls : after.pageCalls = heap.pageCalls := congrArg Prod.snd pages
  exact ⟨sameCalls ▸ sameSpans ▸ accounted.held, sameCalls ▸ accounted.valid⟩

/-- A call for pages is entered. -/
theorem enter (accounted : Accounted heap arenas)
    (calls : after.pageCalls = heap.pageCalls ++ [call])
    (isValid : call.Valid (heldPages heap.pageCalls))
    (held : (call.after (heldPages heap.pageCalls)).Perm (spans further)) :
    Accounted after further := by
  refine ⟨?_, ?_⟩
  · rw [calls, heldPages_append]
    exact held
  · rw [calls]
    exact accounted.valid.snoc isValid

theorem searched {after : Liballoc} (accounted : Accounted heap arenas)
    (searched : Searched heap arenas reqSize (ptr, after)) :
    (∃ piece further, MinorGranted heap arenas reqSize (ptr, after) piece further ∧
      (Occupied arenas → Occupied further) ∧ Accounted after further) ∨
    ptr = 0#64 ∧ heap.supply.headD 0#64 = 0#64 ∧ after.memory = heap.memory ∧
      after.locked = heap.locked ∧ HeapAt after arenas ∧ Accounted after arenas := by
  cases searched with
  | placed _ sameSpans pages occupied granted =>
      exact Or.inl ⟨_, _, granted, occupied, accounted.congr pages sameSpans⟩
  | grown _ _ pageFor grownSpans pages occupied granted =>
      refine Or.inl ⟨_, _, granted, occupied, accounted.enter (congrArg Prod.snd pages) trivial ?_⟩
      rw [grownSpans, PageCall.after, if_neg pageFor.nonnull]
      exact accounted.held.append_right _
  | refused _ given heapAt memory pages books =>
      refine Or.inr ⟨rfl, given, memory, congrArg Prod.fst books, heapAt, ?_⟩
      refine accounted.enter (congrArg Prod.snd pages) trivial ?_
      rw [PageCall.after, if_pos rfl]
      exact accounted.held

theorem returned (accounted : Accounted heap arenas)
    (returned : Returned heap after arenas further) : Accounted after further := by
  cases returned with
  | none sameSpans pages => exact accounted.congr pages sameSpans
  | @arena maj count fewerSpans pages =>
      have held := accounted.held.trans fewerSpans
      refine accounted.enter (congrArg Prod.snd pages) ?_ ?_
      · exact held.mem_iff.mpr List.mem_cons_self
      · have erased := held.erase (maj, count)
        rwa [List.erase_cons_head] at erased

end Accounted

end Nekonix
