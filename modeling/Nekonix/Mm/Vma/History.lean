import Nekonix.Library.Run
import Nekonix.Mm.Vma.Placement
import Nekonix.Mm.Vma.Release

/-!
# Contexts over time

A context is created once and then changed by calls of `vma_alloc` and `vma_free`, in any
order.  It stays in order while the searches end in the list and the pages that are given
back are pages of data.
-/

namespace Nekonix

open Transition

variable {hhdmOffset : U64} {pool : List U64} {kernel ctx : Frame} {records : List Frame}
  {booted start machine next : Machine}

/-- A call, with the record of the region it returned (`NULL` where it returned `NULL`) or
of the region it found. -/
inductive VmaCall where
  | alloc (size flags record : U64)
  | free (ptr record : U64)

/-- There is a frame for the record, the search ends in the list, the region is mapped
present, and `vmm_map` finds the frames for its tables. -/
structure AllocAllowed (hhdmOffset : U64) (ctx : Frame) (machine : Machine) (size flags : U64) :
    Prop where
  available : machine.free ≠ []
  inside : EndsInList machine.memory (ctx.pointer hhdmOffset) size
  valid : EntryFlags flags
  enough : AllocationEnough hhdmOffset machine (ctx.pointer hhdmOffset) size flags

inductive VmaStep (hhdmOffset : U64) (pool : List U64) (kernel ctx : Frame) (machine : Machine) :
    VmaCall → Machine → Prop where
  | alloc {size flags newRegion returned : U64} {placed next : Machine} :
      AllocAllowed hhdmOffset ctx machine size flags →
      vmaPlace hhdmOffset machine (ctx.pointer hhdmOffset) size flags = some (newRegion, placed) →
      vmaAlloc hhdmOffset machine (ctx.pointer hhdmOffset) size flags = some (returned, next) →
      VmaStep hhdmOffset pool kernel ctx machine
        (.alloc size flags (if returned = 0#64 then 0#64 else newRegion)) next
  | free {ptr region : U64} {next : Machine} :
      FreeAllowed hhdmOffset pool kernel ctx machine ptr →
      vmaFind machine.memory ptr (2 ^ 64)
        (Memory.load64 machine.memory (contextRoot (ctx.pointer hhdmOffset))) = some region →
      vmaFree hhdmOffset machine (ctx.pointer hhdmOffset) ptr = some next →
      VmaStep hhdmOffset pool kernel ctx machine (.free ptr region) next

/-- The records of the regions that were returned and not given back since. -/
def liveRegions (calls : List VmaCall) : List U64 :=
  calls.foldl
    (fun live call =>
      match call with
      | .alloc _ _ record => if record = 0#64 then live else live ++ [record]
      | .free _ record => live.erase record)
    []

theorem SoundContext.step {call : VmaCall}
    (sound : SoundContext hhdmOffset pool kernel ctx records machine)
    (step : VmaStep hhdmOffset pool kernel ctx machine call next) :
    ∃ records, SoundContext hhdmOffset pool kernel ctx records next := by
  cases step with
  | alloc allowed placed allocated =>
      rcases sound.alloc allowed.available allowed.inside allowed.valid allowed.enough placed
        allocated with ⟨-, -, kept⟩ | ⟨front, previous, record, back, -, -, grown, -⟩
      · exact ⟨records, kept⟩
      · exact ⟨_, grown⟩
  | free allowed _ freed => exact sound.free allowed freed

theorem SoundContext.run {calls : List VmaCall}
    (sound : SoundContext hhdmOffset pool kernel ctx records machine)
    (run : Run (VmaStep hhdmOffset pool kernel ctx) machine calls next) :
    ∃ records, SoundContext hhdmOffset pool kernel ctx records next := by
  refine run.invariant
    (fun machine => ∃ records, SoundContext hhdmOffset pool kernel ctx records machine)
    ⟨records, sound⟩ ?_
  rintro machine call next ⟨records, sound⟩ step
  exact sound.step step

/-! Creation -/

/-- What a context starts from: the pagemap in order, two free frames, and free frames that
the direct map has and the stack has room for. -/
structure ContextReady (hhdmOffset : U64) (kernel : Frame) (machine : Machine) : Prop where
  usable : machine.stack.Usable
  room : machine.stack.idx ≤ machine.stack.max
  space : AddressSpace hhdmOffset machine kernel Set.univ
  mapped : DirectlyMapped hhdmOffset machine
  pagemapNonnull : kernel.pointer hhdmOffset ≠ 0#64
  enough : 2 ≤ machine.free.length

theorem ContextReady.nonnull {frame : Frame} (ready : ContextReady hhdmOffset kernel booted)
    (free : frame.address ∈ booted.free) : frame.pointer hhdmOffset ≠ 0#64 := by
  refine pointer_ne_zero ?_ (ready.mapped frame free)
  rintro rfl
  obtain ⟨frame, nonzero, isNull⟩ := ready.usable.frame _ free
  exact nonzero (Frame.address_inj.mp isNull).symm

theorem vmaCreateContext_drawn (hhdmOffset : U64) (machine : Machine) (pagemap : U64) :
    Drawn machine (vmaCreateContext hhdmOffset machine pagemap).2 := by
  have first := Drawn.request hhdmOffset machine
  unfold vmaCreateContext requestRegion
  dsimp only
  generalize pmmRequestPage hhdmOffset machine = result at first
  obtain ⟨page, middle⟩ := result
  dsimp only at first ⊢
  have cleared : Drawn middle
      { middle with memory := memset middle.memory (higherHalf hhdmOffset page) 0#8 vmaContextSize } :=
    .of_stack rfl
  have second := cleared.trans (Drawn.request hhdmOffset _)
  exact (first.trans second).trans (.of_stack rfl)

/-- The list of a new context holds the root alone, which stands for page 0. -/
structure NewContext (hhdmOffset : U64) (kernel ctx root : Frame) (booted machine : Machine) :
    Prop where
  sound : SoundContext hhdmOffset booted.free kernel ctx [root] machine
  start : Memory.load64 machine.memory (regionStart (root.pointer hhdmOffset)) = 0#64
  size : Memory.load64 machine.memory (regionSize (root.pointer hhdmOffset)) = 1#64
  prev : Memory.load64 machine.memory (regionPrev (root.pointer hhdmOffset)) = 0#64
  supply : booted.free.length = machine.free.length + 2
  tables : SameTables hhdmOffset kernel Set.univ booted.memory machine.memory
  same : ∀ frame, InUse hhdmOffset kernel booted frame → InUse hhdmOffset kernel machine frame ∧
    SameFrame hhdmOffset booted.memory machine.memory frame

theorem ContextReady.new (ready : ContextReady hhdmOffset kernel booted)
    (result : vmaCreateContext hhdmOffset booted (kernel.pointer hhdmOffset) =
      (ctx.pointer hhdmOffset, start)) :
    ∃ root, NewContext hhdmOffset kernel ctx root booted start := by
  obtain ⟨frame, root, after, isContext, created⟩ :=
    @vmaCreateContext_spec hhdmOffset booted (kernel.pointer hhdmOffset) ready.usable ready.enough
  have drawn := vmaCreateContext_drawn hhdmOffset booted (kernel.pointer hhdmOffset)
  rw [result] at isContext drawn
  obtain ⟨sameContext, rfl⟩ := Prod.ext_iff.mp isContext
  cases Frame.pointer_inj.mp sameContext
  have takes := created.takes
  have advances := Advances.of_takes takes ready.usable ready.space
  have rootNonnull := ready.nonnull (takes.taken_free (List.mem_cons_of_mem _ List.mem_cons_self))
  have sound : SoundContext hhdmOffset booted.free kernel ctx [root] start :=
    { usable := advances.usable
      space := advances.space
      nonnull := fun null => by
        obtain ⟨frame, nonzero, isNull⟩ := ready.usable.frame _ null
        exact nonzero (Frame.address_inj.mp (isNull.symm.trans (by decide)))
      pooled := fun page free => drawn.mem free
      room := by
        rw [PmmStack.length_frames, drawn.max]
        exact ready.room
      inUse := fun frame taken => takes.inUse_taken ready.usable ready.space taken
      fromPool := fun frame taken => takes.taken_free taken
      notRecord := fun listed => created.different (List.mem_singleton.mp listed)
      pagemap := created.isPagemap
      list := ⟨created.isRoot, rootNonnull, created.last⟩ }
  exact ⟨root, sound, created.start, created.size, created.prev, takes.length_free,
    takes.sameTables ready.space, fun frame inUse =>
      ⟨advances.inUse frame inUse, advances.same frame (Set.notMem_empty _) inUse⟩⟩

/-- A new context holds its root. -/
theorem ContextReady.created (ready : ContextReady hhdmOffset kernel booted)
    (result : vmaCreateContext hhdmOffset booted (kernel.pointer hhdmOffset) =
      (ctx.pointer hhdmOffset, start)) :
    ∃ root, SoundContext hhdmOffset booted.free kernel ctx [root] start := by
  obtain ⟨root, new⟩ := ready.new result
  exact ⟨root, new.sound⟩

/-- After any calls the context is in order. -/
theorem ContextReady.reached {calls : List VmaCall} (ready : ContextReady hhdmOffset kernel booted)
    (result : vmaCreateContext hhdmOffset booted (kernel.pointer hhdmOffset) =
      (ctx.pointer hhdmOffset, start))
    (run : Run (VmaStep hhdmOffset booted.free kernel ctx) start calls machine) :
    ∃ records, SoundContext hhdmOffset booted.free kernel ctx records machine := by
  obtain ⟨root, sound⟩ := ready.created result
  exact sound.run run

/-! A context of one region -/

theorem contextReady_cleared (count : Nat) (small : count < 2 ^ 39) (enough : 2 ≤ count) :
    ContextReady 0#64 1#40 (Machine.cleared count) where
  usable := Machine.usable_cleared small
  room := BitVec.le_refl _
  space := Machine.addressSpace_cleared small
  mapped := by
    intro frame free
    have bounds := Machine.mem_free_cleared small free
    have number := frame.address_toNat
    simp only [BitVec.toNat_ofNat] at *
    omega
  pagemapNonnull := by decide
  enough := by rwa [Machine.length_free_cleared small]

/-- A new context, and one region of one page behind its root. -/
structure OneRegion (ctx root record : Frame) (start machine : Machine) : Prop where
  created : vmaCreateContext 0#64 (Machine.cleared 9) (Frame.pointer 0#64 1#40) =
    (ctx.pointer 0#64, start)
  run : Run (VmaStep 0#64 (Machine.cleared 9).free 1#40 ctx) start
    [.alloc 1#64 heapFlags (record.pointer 0#64)] machine
  sound : SoundContext 0#64 (Machine.cleared 9).free 1#40 ctx [root, record] machine
  size : Memory.load64 machine.memory (regionSize (record.pointer 0#64)) = 1#64
  start : Memory.load64 machine.memory (regionStart (record.pointer 0#64)) = pageSize
  held : HeldPage 0#64 1#40 machine pageSize

theorem oneRegion_exists : ∃ ctx root record start machine,
    OneRegion ctx root record start machine := by
  have free : (Machine.cleared 9).free.length = 9 := Machine.length_free_cleared (by decide)
  have valid : EntryFlags heapFlags := ⟨by decide, by decide⟩
  obtain ⟨ctx, first, start, created, fresh, count⟩ :=
    vmaCreateContext_fresh (cleared_ready 9 (by decide)) (by omega)
  obtain ⟨enough, machine, allocated, -⟩ :=
    vmaAlloc_first_page fresh valid identity_nonnull (by omega)
  obtain ⟨-, -, held⟩ := vmaAlloc_spec fresh.heap valid enough allocated
  obtain ⟨root, sound⟩ := (contextReady_cleared 9 (by decide) (by decide)).created created
  obtain ⟨⟨newRegion, placed⟩, isPlaced, -⟩ := Option.map_eq_some_iff.mp allocated
  have allowed : AllocAllowed 0#64 ctx start 1#64 heapFlags :=
    { available := List.ne_nil_of_length_pos (by omega)
      inside := fun regions list => Or.inl (by rw [list.unique sound.list]; rfl)
      valid
      enough }
  have step : VmaStep 0#64 (Machine.cleared 9).free 1#40 ctx start
      (.alloc 1#64 heapFlags newRegion) machine := .alloc allowed isPlaced allocated
  rcases sound.alloc allowed.available allowed.inside valid enough isPlaced allocated with
    ⟨-, null, -⟩ | ⟨front, previous, record, back, split, rfl, grown, size, null | isStart⟩
  · exact absurd null (by decide)
  · exact absurd null (by decide)
  · cases front with
    | cons other front => simp at split
    | nil =>
        obtain ⟨rfl, rfl⟩ := List.cons_eq_cons.mp split
        exact ⟨ctx, root, record, start, machine, created, .single step, grown, size, isStart.symm,
          held (by decide) 0#64 (by decide)⟩

end Nekonix
