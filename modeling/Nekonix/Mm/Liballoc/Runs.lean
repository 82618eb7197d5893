import Nekonix.Library.BlockStore.Ledger
import Nekonix.Mm.Liballoc.Use

/-!
# Runs of the heap

What holds of a heap in use from its first call on, whatever its callers do with the blocks that
they hold.
-/

namespace Nekonix

open FlatMemory BlockStore Transition

variable {memory : Memory} {supply : List U64} {use next : Use} {arenas : List Arena}
  {actions later : List (Action U64 U8)} {ptr size : U64} {bytes : Nat} {piece : Piece}

/-- A range of bytes lies in pages that are held, behind the headers. -/
def InPages (calls : List PageCall) (ptr : U64) (bytes : Nat) : Prop :=
  ∃ span ∈ heldPages calls, span.1.toNat + 96 ≤ ptr.toNat ∧
    ptr.toNat + bytes < span.1.toNat + span.2.toNat * 4096 ∧
    span.1.toNat + span.2.toNat * 4096 ≤ 2 ^ 64

theorem UseAt.inPages (useAt : UseAt use arenas) (member : piece ∈ live arenas) :
    InPages use.heap.pageCalls piece.ptr piece.reqSize.toNat := by
  obtain ⟨arena, isArena, isPiece⟩ := List.mem_flatMap.mp member
  have arenaAt := useAt.heapAt.each arena isArena
  have span : (arena.maj, arena.pages) ∈ spans arenas := List.mem_map_of_mem isArena
  have noWrap := arenaAt.noWrap
  obtain ⟨above, below⟩ := arenaAt.bounds isPiece
  have bounds := useAt.heapAt.live_bounds member
  unfold Piece.start Piece.stop at bounds
  unfold Arena.stop at noWrap below
  exact ⟨_, useAt.accounted.held.mem_iff.mpr span, by dsimp only; omega, by dsimp only; omega,
    noWrap⟩

theorem useAt_of_run (run : Run UseStep (.boot memory supply) actions use) :
    ∃ arenas, UseAt use arenas :=
  ((useAt_boot memory supply).run run).1

/-! A heap with one block -/

/-- The pages at `0x10000` are the next ones, and those of `rest` come later. -/
def bootUse (rest : List U64) : Use := .boot (fun _ => 0#8) (0x10000#64 :: rest)

def oneBlockHeap (rest : List U64) : Liballoc :=
  (kmalloc (bootUse rest).heap 24#64).elim (bootUse rest).heap Prod.snd

/-- A block of 24 bytes is out. -/
def oneBlock (rest : List U64) : Use := (bootUse rest).take (oneBlockHeap rest) 0x10060#64 24

theorem oneBlock_call {rest : List U64}
    (isPtr : (kmalloc (bootUse rest).heap 24#64).map Prod.fst = some 0x10060#64) :
    kmalloc (bootUse rest).heap 24#64 = some (0x10060#64, oneBlockHeap rest) := by
  obtain ⟨⟨ptr, after⟩, isResult, rfl⟩ := Option.map_eq_some_iff.mp isPtr
  unfold oneBlockHeap
  rw [isResult]
  rfl

theorem oneBlock_run {rest : List U64}
    (isPtr : (kmalloc (bootUse rest).heap 24#64).map Prod.fst = some 0x10060#64) :
    Run UseStep (.boot (fun _ => 0#8) (0x10000#64 :: rest)) [.alloc 24 0x10060#64]
      (oneBlock rest) := by
  have fresh : FreshPages (bootUse rest).heap 24#64 := by
    intro _
    refine ⟨?_, fun span member => absurd member List.not_mem_nil⟩
    change 0x10000 + (pagesFor 24#64).toNat * 4096 ≤ 2 ^ 64
    decide
  exact Run.single (UseStep.malloc (by decide) fresh (oneBlock_call isPtr))

theorem oneBlock_reached :
    Run UseStep (.boot (fun _ => 0#8) [0x10000#64]) [.alloc 24 0x10060#64] (oneBlock []) :=
  oneBlock_run (by decide +kernel)

theorem occupied_empty (occupied : Occupied arenas) (empty : live arenas = []) : arenas = [] := by
  cases arenas with
  | nil => rfl
  | cons arena rest =>
      have isEmpty : arena.pieces = [] := by
        rw [live, List.flatMap_cons] at empty
        exact (List.append_eq_nil_iff.mp empty).1
      exact absurd isEmpty (occupied arena List.mem_cons_self)

/-- What is given out lies in pages that the heap was given. -/
theorem given_inPages (run : Run UseStep (.boot memory supply) actions use) :
    ∀ action ∈ actions, ∀ ptr, action.given = some ptr → ptr ≠ 0#64 → ∃ pages page,
      PageCall.alloc pages page ∈ use.heap.pageCalls ∧ InRange page (pages.toNat * 4096) ptr := by
  induction run with
  | nil => simp
  | @snoc earlier middle action finish before step inductionHypothesis =>
      obtain ⟨arenas, useAt⟩ := useAt_of_run before
      have landed := step.lands useAt
      intro given member ptr isGiven nonnull
      rcases List.mem_append.mp member with old | here
      · obtain ⟨pages, page, called, inPage⟩ := inductionHypothesis given old ptr isGiven nonnull
        exact ⟨pages, page, landed.entered.subset called, inPage⟩
      · rw [List.mem_singleton.mp here] at isGiven
        obtain ⟨further, nextUseAt⟩ := landed.useAt
        have isOut : finish.store ptr ≠ none := landed.step.given_out isGiven nonnull
        obtain ⟨bytes, held⟩ : ∃ bytes, finish.blocks ptr = some bytes := by
          refine Option.ne_none_iff_exists'.mp fun isNone => isOut ?_
          rw [Use.store, isNone]
          rfl
        obtain ⟨piece, isPiece, rfl, rfl⟩ := nextUseAt.block held
        obtain ⟨span, isSpan, above, below, noWrap⟩ := nextUseAt.inPages isPiece
        refine ⟨span.2, span.1, mem_of_heldPages isSpan, ?_⟩
        rw [inRange_iff_toNat noWrap]
        omega

end Nekonix
