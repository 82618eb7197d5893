import Nekonix.Mm.Liballoc.Runs

/-!
# How the calls end

Which calls return and with what, when the heap asks for pages, and what becomes of a block whose
reallocation is refused, or that is freed twice.
-/

namespace Nekonix

open FlatMemory BlockStore Transition

variable {memory : Memory} {supply : List U64} {use : Use} {heap after : Liballoc}
  {arenas front back : List Arena} {actions : List (Action U64 U8)} {ptr size address : U64}
  {bytes : Nat} {piece : Piece} {arena : Arena} {before behind : List Piece}

theorem fresh_oneBlock (size : U64) : FreshPages (oneBlock []).heap size := by
  have noPages : (oneBlock []).heap.supply.headD 0#64 = 0#64 := by decide +kernel
  exact fun given => absurd noPages given

/-- A call and what it returns at one heap. -/
theorem call_of_map {call : Option (U64 × Liballoc)} (isPtr : call.map Prod.fst = some ptr) :
    ∃ after, call = some (ptr, after) := by
  obtain ⟨⟨result, after⟩, isResult, rfl⟩ := Option.map_eq_some_iff.mp isPtr
  exact ⟨after, isResult⟩

/-- What is left of a minor in an arena that stays. -/
theorem freeMinor_leaves (heapAt : HeapAt heap (front ++ arena :: back))
    (split : arena.pieces = before ++ piece :: behind) :
    (∃ call, (freeMinor heap piece.min).pageCalls = heap.pageCalls ++ [call]) ∨
      (minorAt (freeMinor heap piece.min).memory piece.min).magic = liballocDead ∧
        (freeMinor heap piece.min).memory (piece.ptr - alignInfo) =
          heap.memory (piece.ptr - alignInfo) := by
  have arenaAt := heapAt.arenaAt
  have isPiece : piece ∈ arena.pieces := by simp [split]
  have linked := heapAt.linkedOut split
  have relinked := arenaAt.relinked split linked
  have isBlock : heap.read minorBlock piece.min = arena.maj :=
    (arenaAt.pieces piece isPiece).block
  have samePages : (detachMinor heap arena.maj piece.min).pageCalls = heap.pageCalls := by
    rw [detachMinor_rest]
  have released : (releaseBlock (detachMinor heap arena.maj piece.min) arena.maj).pageCalls =
      (detachMinor heap arena.maj piece.min).pageCalls ++
        [.free arena.maj ((releaseBlock (detachMinor heap arena.maj piece.min) arena.maj).read
          majorPages arena.maj)] := by
    unfold releaseBlock Liballoc.pagesFree
    dsimp only
    split_ifs <;> rfl
  unfold freeMinor
  dsimp only
  rw [isBlock]
  split_ifs
  · exact Or.inl ⟨_, released.trans (by rw [samePages])⟩
  · obtain ⟨bet, -, isAfter⟩ :=
      reconsiderBet_eq (detachMinor heap arena.maj piece.min) arena.maj
    rw [isAfter]
    refine Or.inr ⟨congrArg Minor.magic linked.atMinor, ?_⟩
    have size := arenaAt.size_ge isPiece
    have inside := diff_inRange piece.min
    have off := diff_outside piece.min
    rw [arenaAt.inRange_min isPiece (by decide)] at inside
    have offMin : ¬(piece.min.toNat ≤ (piece.ptr - alignInfo).toNat ∧
        (piece.ptr - alignInfo).toNat < piece.min.toNat + 40) := fun inHeader =>
      off ((arenaAt.inRange_min isPiece (by decide)).mpr inHeader)
    refine relinked.kept arenaAt isPiece ?_ ?_ off
    · change piece.min.toNat + 40 ≤ (userPtr piece.min - alignInfo).toNat
      unfold Piece.ptr at offMin
      omega
    · change (userPtr piece.min - alignInfo).toNat < piece.stop
      unfold Piece.stop
      omega

end Nekonix
