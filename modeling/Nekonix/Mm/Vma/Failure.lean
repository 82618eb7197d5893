import Nekonix.Mm.Vma.History

/-!
# When `vma_alloc` fails

A call that runs out of frames while it maps its pages returns `NULL` and undoes nothing:
the record has come off the free stack and stays linked.
-/

namespace Nekonix

open LinkedList Transition

variable {hhdmOffset size flags newRegion returned : U64} {pool : List U64} {kernel : Frame}
  {records : List Frame} {before placed after : Machine}

/-- The frames that `vmm_map` takes for its tables in the mapping loop. -/
def vmaTableFrames (hhdmOffset ctx newRegion : U64) : (fuel : Nat) → Machine → (i : U64) → List U64
  | 0, _, _ => []
  | fuel + 1, machine, i =>
      if i < mappedPages (Memory.load64 machine.memory (regionSize newRegion)) then
        let turn := vmaMapPage hhdmOffset ctx newRegion machine i
        if turn.1 = 0#64 then []
        else
          (pmmRequestPage hhdmOffset machine).2.free.drop turn.2.free.length ++
            vmaTableFrames hhdmOffset ctx newRegion fuel turn.2 (i + 1#64)
      else
        []

/-- The call gets its record and finds no frame for one of its pages. -/
structure RunsOut (hhdmOffset ctx size flags : U64) (before : Machine) (newRegion : U64)
    (placed after : Machine) : Prop where
  isPlaced : vmaPlace hhdmOffset before ctx size flags = some (newRegion, placed)
  nonnull : newRegion ≠ 0#64
  fails : vmaMapPages hhdmOffset ctx newRegion (2 ^ 52) placed 0#64 = (false, after)

/-- The regions, the translations and the free frames are what they were, but for the frames
of tables. -/
structure NoTrace (hhdmOffset ctx : U64) (tables : List U64) (before after : Machine) : Prop where
  regions : ∀ regions, RegionList after.memory ctx regions ↔ RegionList before.memory ctx regions
  translations : ∀ virt,
    virtToPhys hhdmOffset after.memory (Memory.load64 after.memory (contextPagemap ctx)) virt =
      virtToPhys hhdmOffset before.memory (Memory.load64 before.memory (contextPagemap ctx)) virt
  available : ∀ page, page ∉ tables → (page ∈ after.free ↔ page ∈ before.free)

theorem vmaTableFrames_free (hhdmOffset ctx newRegion : U64) (fuel : Nat) (machine : Machine)
    (i : U64) :
    ∀ page ∈ vmaTableFrames hhdmOffset ctx newRegion fuel machine i, page ∈ machine.free := by
  induction fuel generalizing machine i with
  | zero => exact fun _ none => nomatch none
  | succ fuel inductionHypothesis =>
      intro page membership
      rw [vmaTableFrames] at membership
      dsimp only at membership
      split_ifs at membership
      · cases membership
      · rcases List.mem_append.mp membership with here | later
        · exact (Drawn.request hhdmOffset machine).mem (List.mem_of_mem_drop here)
        · exact (vmaMapPage_drawn hhdmOffset ctx newRegion machine i).mem
            (inductionHypothesis _ _ page later)
      · cases membership

/-- For a record one frame is requested; linking takes none. -/
theorem vmaPlace_stack {ctx : U64}
    (isPlaced : vmaPlace hhdmOffset before ctx size flags = some (newRegion, placed))
    (nonnull : newRegion ≠ 0#64) : placed.stack = (pmmRequestPage hhdmOffset before).2.stack := by
  rcases vmaPlace_cases rfl isPlaced with ⟨null, -⟩ | ⟨-, -, region, memory, -, rfl⟩
  · exact absurd null nonnull
  · rfl

namespace RunsOut

theorem returns_null {ctx : U64}
    (runsOut : RunsOut hhdmOffset ctx size flags before newRegion placed after) :
    vmaAlloc hhdmOffset before ctx size flags = some (0#64, after) := by
  unfold vmaAlloc
  rw [runsOut.isPlaced, Option.map_some]
  dsimp only
  rw [if_neg runsOut.nonnull, runsOut.fails]
  rfl

/-- The frame of the record does not come back. -/
theorem record_lost {ctx : U64}
    (runsOut : RunsOut hhdmOffset ctx size flags before newRegion placed after)
    (usable : before.stack.Usable) (available : before.free ≠ []) :
    ∃ page ∈ before.free, page ∉ placed.free ∧ page ∉ after.free := by
  have requested := pmmRequestPage_spec hhdmOffset available
  have sameStack := vmaPlace_stack runsOut.isPlaced runsOut.nonnull
  have nodup : before.free.Nodup := usable.nodup
  have free : before.free = placed.free ++ [(pmmRequestPage hhdmOffset before).1] := by
    rw [requested.free, Machine.free, Machine.free, sameStack]
  have drawn := vmaMapPages_drawn hhdmOffset ctx newRegion (2 ^ 52) placed 0#64
  rw [runsOut.fails] at drawn
  rw [free] at nodup ⊢
  have taken : (pmmRequestPage hhdmOffset before).1 ∉ placed.free := fun again =>
    (List.nodup_append.mp nodup).2.2 _ again _ (List.mem_singleton_self _) rfl
  exact ⟨_, List.mem_append_right _ (List.mem_singleton_self _), taken,
    fun again => taken (drawn.mem again)⟩

theorem leaves_trace {ctx : U64}
    (runsOut : RunsOut hhdmOffset ctx size flags before newRegion placed after)
    (usable : before.stack.Usable) (available : before.free ≠ []) :
    ¬NoTrace hhdmOffset ctx (vmaTableFrames hhdmOffset ctx newRegion (2 ^ 52) placed 0#64) before
      after := by
  intro noTrace
  obtain ⟨page, wasFree, notPlaced, lost⟩ := runsOut.record_lost usable available
  have noTable := mt (vmaTableFrames_free hhdmOffset ctx newRegion (2 ^ 52) placed 0#64 page) notPlaced
  exact lost ((noTrace.available page noTable).mpr wasFree)

/-- In a context in order the record stays in the list. -/
theorem stays_listed {ctx : Frame}
    (runsOut : RunsOut hhdmOffset (ctx.pointer hhdmOffset) size flags before newRegion placed after)
    (sound : SoundContext hhdmOffset pool kernel ctx records before)
    (allowed : AllocAllowed hhdmOffset ctx before size flags) :
    ∃ regions, RegionList after.memory (ctx.pointer hhdmOffset) regions ∧ newRegion ∈ regions ∧
      ¬RegionList before.memory (ctx.pointer hhdmOffset) regions := by
  rcases sound.alloc allowed.available allowed.inside allowed.valid allowed.enough runsOut.isPlaced
    runsOut.returns_null with ⟨null, -⟩ | ⟨front, previous, record, back, rfl, rfl, grown, -⟩
  · exact absurd null runsOut.nonnull
  · refine ⟨_, grown.list, List.mem_map_of_mem (by simp), fun before => ?_⟩
    have lengths := congrArg List.length (before.unique sound.list)
    simp at lengths

end RunsOut

/-- A call that runs out of frames leaves a trace. -/
theorem vma_alloc_failure_leaves_trace {ctx : U64} (usable : before.stack.Usable)
    (available : before.free ≠ [])
    (runsOut : RunsOut hhdmOffset ctx size flags before newRegion placed after) :
    vmaAlloc hhdmOffset before ctx size flags = some (0#64, after) ∧
      ¬NoTrace hhdmOffset ctx (vmaTableFrames hhdmOffset ctx newRegion (2 ^ 52) placed 0#64) before
        after :=
  ⟨runsOut.returns_null, runsOut.leaves_trace usable available⟩

/-- A new context, and one free frame that is left for the record of its first region. -/
structure LastFrame (ctx : Frame) (newRegion : U64) (start placed : Machine) : Prop where
  created : vmaCreateContext 0#64 (Machine.cleared 3) (Frame.pointer 0#64 1#40) =
    (ctx.pointer 0#64, start)
  usable : start.stack.Usable
  available : start.free ≠ []
  runsOut : RunsOut 0#64 (ctx.pointer 0#64) 1#64 heapFlags start newRegion placed placed

theorem lastFrame_exists : ∃ ctx newRegion start placed, LastFrame ctx newRegion start placed := by
  have free : (Machine.cleared 3).free.length = 3 := Machine.length_free_cleared (by decide)
  obtain ⟨ctx, root, start, created, fresh, count⟩ :=
    vmaCreateContext_fresh (cleared_ready 3 (by decide)) (by omega)
  have available : start.free ≠ [] := List.ne_nil_of_length_pos (by omega)
  obtain ⟨newRegion, placed, isRegion, isPlaced, spent⟩ :=
    @vmaPlace_first_returns _ 1#64 heapFlags _ _ _ _ _ fresh identity_nonnull available
  obtain ⟨more, isNew⟩ := vmaPlace_spec fresh.heap isPlaced
  have empty : placed.free = [] := List.eq_nil_of_length_eq_zero (by omega)
  have fails : ∀ fuel,
      vmaMapPages 0#64 (ctx.pointer 0#64) newRegion (fuel + 1) placed 0#64 = (false, placed) := by
    intro fuel
    have inside : 0#64 < mappedPages 1#64 := by decide
    simp only [vmaMapPages, isNew.size isRegion, if_pos inside, vmaMapPage,
      pmmRequestPage_empty empty, if_true]
  exact ⟨ctx, newRegion, start, placed, created, fresh.heap.usable, available, isPlaced, isRegion,
    fails (2 ^ 52 - 1)⟩

theorem vma_alloc_failure_leaves_trace_last : ∃ ctx newRegion start placed,
    LastFrame ctx newRegion start placed ∧
      vmaAlloc 0#64 start (ctx.pointer 0#64) 1#64 heapFlags = some (0#64, placed) ∧
      ¬NoTrace 0#64 (ctx.pointer 0#64)
        (vmaTableFrames 0#64 (ctx.pointer 0#64) newRegion (2 ^ 52) placed 0#64) start placed := by
  obtain ⟨ctx, newRegion, start, placed, last⟩ := lastFrame_exists
  exact ⟨ctx, newRegion, start, placed, last,
    vma_alloc_failure_leaves_trace last.usable last.available last.runsOut⟩

/-- With one frame left the record of the first region is lost. -/
theorem vma_alloc_failure_not_atomic : ¬∀ (hhdmOffset size flags newRegion : U64)
    (kernel ctx : Frame) (booted start before placed after : Machine) (calls : List VmaCall),
    ContextReady hhdmOffset kernel booted →
    vmaCreateContext hhdmOffset booted (kernel.pointer hhdmOffset) =
      (ctx.pointer hhdmOffset, start) →
    Run (VmaStep hhdmOffset booted.free kernel ctx) start calls before → before.free ≠ [] →
    RunsOut hhdmOffset (ctx.pointer hhdmOffset) size flags before newRegion placed after →
    NoTrace hhdmOffset (ctx.pointer hhdmOffset)
      (vmaTableFrames hhdmOffset (ctx.pointer hhdmOffset) newRegion (2 ^ 52) placed 0#64) before
      after := by
  intro always
  obtain ⟨ctx, newRegion, start, placed, last⟩ := lastFrame_exists
  refine last.runsOut.leaves_trace last.usable last.available ?_
  exact always 0#64 1#64 heapFlags newRegion 1#40 ctx _ start start placed placed []
    (contextReady_cleared 3 (by decide) (by decide)) last.created .nil last.available last.runsOut

end Nekonix
