import Nekonix.Library.Run
import Nekonix.Mm.Pmm.Init

/-!
# Conservation of physical frames

A client that frees only what it holds can neither lose nor duplicate a frame:
the free stack and the frames held stay a permutation of the frames
`pmm_init` listed.
-/

namespace Nekonix

open Transition

/-- A call of the frame allocator. -/
inductive PmmCall where
  | request
  | free (ptr : U64)

/-- The machine together with the frames its clients hold. -/
structure Accounting where
  machine : Machine
  held : List U64

/-- Carry out a call and book the frame it moves. -/
def Accounting.call (hhdmOffset : U64) (account : Accounting) : PmmCall → Accounting
  | .request =>
      let (page, machine) := pmmRequestPage hhdmOffset account.machine
      { machine, held := if page = 0#64 then account.held else page :: account.held }
  | .free ptr =>
      { machine := pmmFreePage account.machine ptr, held := account.held.erase ptr }

/-- A free passes `NULL` or a frame that is held. -/
def Accounting.Allowed (account : Accounting) : PmmCall → Prop
  | .request => True
  | .free ptr => ptr = 0#64 ∨ ptr ∈ account.held

/-- Free and held frames together are the frames there were at the start. -/
structure Accounting.Balanced (initial : PmmStack) (account : Accounting) : Prop where
  balance : (account.machine.free ++ account.held).Perm initial.frames
  max : account.machine.stack.max = initial.max

namespace Accounting

variable {hhdmOffset : U64} {initial : PmmStack} {account : Accounting}

theorem Balanced.nodup (ready : initial.Ready) (balanced : account.Balanced initial) :
    (account.machine.free ++ account.held).Nodup :=
  balanced.balance.nodup_iff.mpr ready.nodup

theorem Balanced.nonnull (ready : initial.Ready) (balanced : account.Balanced initial)
    {frame : U64} (membership : frame ∈ account.machine.free ++ account.held) :
    frame ≠ 0#64 := by
  rintro rfl
  exact ready.nonnull (balanced.balance.mem_iff.mp membership)

/-- The stack index counts the frames that are not held. -/
theorem Balanced.count (ready : initial.Ready) (balanced : account.Balanced initial) :
    account.machine.stack.idx.toNat + account.held.length =
      account.machine.stack.max.toNat := by
  have lengths := balanced.balance.length_eq
  rw [List.length_append, PmmStack.length_frames, PmmStack.length_frames, ready.full] at lengths
  rw [balanced.max, lengths]

/-- While a frame is held the stack has room for it. -/
theorem Balanced.room (ready : initial.Ready) (balanced : account.Balanced initial)
    {frame : U64} (held : frame ∈ account.held) :
    account.machine.stack.idx < account.machine.stack.max := by
  have count := balanced.count ready
  have positive := List.length_pos_of_mem held
  rw [BitVec.lt_def]
  omega

theorem Balanced.request_fresh (ready : initial.Ready) (balanced : account.Balanced initial) :
    (pmmRequestPage hhdmOffset account.machine).1 ∉ account.held := by
  intro held
  by_cases empty : account.machine.free = []
  · rw [pmmRequestPage_empty empty] at held
    exact balanced.nonnull ready (List.mem_append_right _ held) rfl
  · have requested := pmmRequestPage_spec hhdmOffset empty
    have free : (pmmRequestPage hhdmOffset account.machine).1 ∈ account.machine.free := by
      rw [requested.free]
      simp
    exact (List.nodup_append.mp (balanced.nodup ready)).2.2 _ free _ held rfl

theorem Balanced.request_null_iff (ready : initial.Ready) (balanced : account.Balanced initial) :
    (pmmRequestPage hhdmOffset account.machine).1 = 0#64 ↔
      account.held.length = account.machine.stack.max.toNat := by
  have count := balanced.count ready
  have empty_iff : account.machine.free = [] ↔
      account.held.length = account.machine.stack.max.toNat := by
    rw [PmmStack.frames_eq_nil_iff, ← BitVec.toNat_inj]
    simp
    omega
  rw [← empty_iff]
  constructor
  · intro null
    by_contra available
    have requested := pmmRequestPage_spec hhdmOffset available
    have free : (pmmRequestPage hhdmOffset account.machine).1 ∈ account.machine.free := by
      rw [requested.free]
      simp
    exact balanced.nonnull ready (List.mem_append_left _ free) null
  · intro empty
    rw [pmmRequestPage_empty empty]

theorem Balanced.request (ready : initial.Ready) (balanced : account.Balanced initial) :
    (account.call hhdmOffset .request).Balanced initial := by
  by_cases empty : account.machine.free = []
  · simpa [call, pmmRequestPage_empty empty] using balanced
  · have requested := pmmRequestPage_spec hhdmOffset empty
    have nonnull : (pmmRequestPage hhdmOffset account.machine).1 ≠ 0#64 := by
      apply balanced.nonnull ready
      rw [requested.free]
      simp
    constructor
    · have balance := balanced.balance
      rw [requested.free, List.append_assoc, List.singleton_append] at balance
      simpa [call, nonnull] using balance
    · exact requested.max.trans balanced.max

theorem Balanced.free (ready : initial.Ready) (balanced : account.Balanced initial) {ptr : U64}
    (allowed : account.Allowed (.free ptr)) :
    (account.call hhdmOffset (.free ptr)).Balanced initial := by
  rcases allowed with null | held
  · subst null
    have notHeld : 0#64 ∉ account.held :=
      fun held => balanced.nonnull ready (List.mem_append_right _ held) rfl
    simpa [call, List.erase_of_not_mem notHeld] using balanced
  · have nonnull := balanced.nonnull ready (List.mem_append_right _ held)
    constructor
    · have pushed := pmmFreePage_free nonnull (balanced.room ready held)
      have moved : (ptr :: account.held.erase ptr).Perm account.held :=
        (List.perm_cons_erase held).symm
      change ((pmmFreePage account.machine ptr).free ++ account.held.erase ptr).Perm _
      rw [pushed, List.append_assoc, List.singleton_append]
      exact (moved.append_left _).trans balanced.balance
    · simpa [call] using balanced.max

theorem Balanced.step (ready : initial.Ready) {call : PmmCall} {next : Accounting}
    (balanced : account.Balanced initial)
    (step : guarded (Accounting.call hhdmOffset) Allowed account call next) :
    next.Balanced initial := by
  obtain ⟨allowed, rfl⟩ := step
  cases call with
  | request => exact balanced.request ready
  | free ptr => exact balanced.free ready allowed

end Accounting

theorem Accounting.Balanced.of_run {machine : Machine} (ready : machine.stack.Ready)
    {calls : List PmmCall} {account : Accounting} {hhdmOffset : U64}
    (run : Run (guarded (Accounting.call hhdmOffset) Accounting.Allowed) ⟨machine, []⟩
      calls account) : account.Balanced machine.stack := by
  refine run.invariant (Accounting.Balanced machine.stack) ⟨by simp, rfl⟩ ?_
  intro state call next balanced step
  exact balanced.step ready step

/-- After `pmm_init`, no run of requests and matching frees loses, duplicates or
hands out twice a frame, and `pmm_free_page` never finds the stack full. -/
theorem pmm_conserves_frames {hhdmOffset : U64} {memory : Memory} {pages : U64 → U64}
    {memmap : List LimineMemmapEntry} (documented : MemmapDocumented memmap)
    {calls : List PmmCall} {account : Accounting}
    (run : Run (guarded (Accounting.call hhdmOffset) Accounting.Allowed)
      ⟨pmmInit memory pages memmap, []⟩ calls account) :
    (account.machine.free ++ account.held).Perm (pmmInit memory pages memmap).free ∧
      (account.machine.free ++ account.held).Nodup ∧
      (pmmRequestPage hhdmOffset account.machine).1 ∉ account.held ∧
      ((pmmRequestPage hhdmOffset account.machine).1 = 0#64 ↔
        account.held.length = account.machine.stack.max.toNat) ∧
      ∀ frame ∈ account.held, frame ≠ 0#64 ∧
        account.machine.stack.idx < account.machine.stack.max ∧
        (pmmFreePage account.machine frame).free = account.machine.free ++ [frame] := by
  have ready : (pmmInit memory pages memmap).stack.Ready := pmmInit_ready documented
  have balanced := Accounting.Balanced.of_run ready run
  refine ⟨balanced.balance, balanced.nodup ready, balanced.request_fresh ready,
    balanced.request_null_iff ready, ?_⟩
  intro frame held
  have nonnull := balanced.nonnull ready (List.mem_append_right _ held)
  have room := balanced.room ready held
  exact ⟨nonnull, room, pmmFreePage_free nonnull room⟩

/-- One usable entry of sixteen pages, and a request. -/
theorem pmm_conserves_frames_request :
    let initial := pmmInit (fun _ => 0#8) (fun _ => 0#64) [⟨0x100000#64, 0x10000#64, 0#64⟩]
    let account := Accounting.call 0#64 ⟨initial, []⟩ .request
    (account.machine.free ++ account.held).Perm initial.free := by
  intro initial account
  have documented : MemmapDocumented [⟨0x100000#64, 0x10000#64, 0#64⟩] := by
    refine ⟨?_, List.pairwise_singleton _ _⟩
    intro entry membership _
    obtain rfl := List.mem_singleton.mp membership
    exact ⟨by decide, by decide, by decide⟩
  have allowed : Accounting.Allowed ⟨initial, []⟩ .request := trivial
  exact (pmm_conserves_frames documented (Run.nil.snoc ⟨allowed, rfl⟩)).1

end Nekonix
