import Nekonix.Mm.Liballoc.Free

/-!
# The blocks that are out

The bytes that a caller asked for lie behind everything that the heap keeps for itself, in the
pages of one arena, and apart from those of every other caller.
-/

namespace Nekonix

open FlatMemory Packing

variable {heap : Liballoc} {memory : Memory} {address : U64} {piece later : Piece} {arena : Arena}
  {arenas : List Arena}

namespace Piece

/-- The bytes that the caller asked for. -/
def Owns (piece : Piece) (address : U64) : Prop := InRange piece.ptr piece.reqSize.toNat address

/-- One minor lies behind the other. -/
def Apart (piece later : Piece) : Prop := piece.stop ≤ later.start ∨ later.stop ≤ piece.start

theorem Apart.symm (apart : piece.Apart later) : later.Apart piece := Or.symm apart

end Piece

namespace ArenaAt

/-- The bytes of a caller lie between the distance and the end of the minor. -/
theorem owns_iff (arenaAt : ArenaAt memory arena) (member : piece ∈ arena.pieces) :
    piece.Owns address ↔ piece.ptr.toNat ≤ address.toNat ∧
      address.toNat < piece.ptr.toNat + piece.reqSize.toNat := by
  obtain ⟨-, high, -⟩ := alignDiff_toNat piece.min
  have isPtr := arenaAt.ptr_toNat member
  have room := (arenaAt.pieces piece member).room
  have noWrap := arenaAt.noWrap
  have below := (arenaAt.bounds member).2
  exact inRange_iff_toNat (by omega)

theorem owns_bounds (arenaAt : ArenaAt memory arena) (member : piece ∈ arena.pieces)
    (owns : piece.Owns address) :
    piece.min.toNat + 56 ≤ address.toNat ∧ address.toNat < piece.stop := by
  obtain ⟨low, high, -⟩ := alignDiff_toNat piece.min
  have isPtr := arenaAt.ptr_toNat member
  have room := (arenaAt.pieces piece member).room
  rw [arenaAt.owns_iff member] at owns
  unfold Piece.stop
  omega

theorem owns_holds (arenaAt : ArenaAt memory arena) (member : piece ∈ arena.pieces)
    (owns : piece.Owns address) : arena.Holds address := by
  have inside := arenaAt.owns_bounds member owns
  obtain ⟨above, below⟩ := arenaAt.bounds member
  unfold Piece.stop at inside
  unfold Arena.Holds
  omega

/-- No byte of a caller is one that the heap keeps for itself. -/
theorem owns_not_reserved (arenaAt : ArenaAt memory arena) (member : piece ∈ arena.pieces)
    (owns : piece.Owns address) : ¬arena.Reserved address := by
  have inside := arenaAt.owns_bounds member owns
  have above := (arenaAt.bounds member).1
  rintro (inMajor | ⟨later, isLater, inMinor⟩)
  · rw [arenaAt.inRange_maj] at inMajor
    omega
  · rw [arenaAt.inRange_min isLater (by decide)] at inMinor
    by_cases same : piece = later
    · rw [same] at inside
      omega
    · have order := arenaAt.packed.apart member isLater same
      have size := arenaAt.size_ge isLater
      unfold Piece.start Piece.stop at order
      unfold Piece.stop at inside
      omega

end ArenaAt

namespace HeapAt

theorem owns_not_kept (heapAt : HeapAt heap arenas) (member : piece ∈ live arenas)
    (owns : piece.Owns address) : ¬Kept arenas address := by
  obtain ⟨arena, isArena, isPiece⟩ := List.mem_flatMap.mp member
  have arenaAt := heapAt.each arena isArena
  rintro ⟨further, isFurther, reserved⟩
  by_cases same : arena = further
  · subst same
    exact arenaAt.owns_not_reserved isPiece owns reserved
  · have beside := Arena.beside_of_mem heapAt.beside isArena isFurther same
    refine beside.not_holds (arenaAt.owns_holds isPiece owns) ?_
    exact (heapAt.each further isFurther).reserved_bounds reserved

/-- The minors in use lie apart. -/
theorem live_apart (heapAt : HeapAt heap arenas) : (live arenas).Pairwise Piece.Apart := by
  rw [live, List.pairwise_flatMap]
  constructor
  · exact fun arena isArena => (heapAt.each arena isArena).packed.pairwise.imp Or.inl
  · refine heapAt.beside.imp_of_mem ?_
    intro arena further isArena isFurther beside piece isPiece later isLater
    have inArena := (heapAt.each arena isArena).bounds isPiece
    have inFurther := (heapAt.each further isFurther).bounds isLater
    unfold Arena.Beside at beside
    unfold Piece.Apart Piece.stop Piece.start
    omega

theorem live_size (heapAt : HeapAt heap arenas) (member : piece ∈ live arenas) :
    piece.reqSize.toNat + 32 ≤ piece.size.toNat := by
  obtain ⟨arena, isArena, isPiece⟩ := List.mem_flatMap.mp member
  exact ((heapAt.each arena isArena).pieces piece isPiece).room

theorem live_nodup (heapAt : HeapAt heap arenas) : (live arenas).Nodup := by
  refine heapAt.live_apart.imp_of_mem ?_
  rintro piece later member _ apart rfl
  have size := heapAt.live_size member
  unfold Piece.Apart Piece.stop Piece.start at apart
  omega

theorem apart_of_mem (heapAt : HeapAt heap arenas) (member : piece ∈ live arenas)
    (other : later ∈ live arenas) (different : piece ≠ later) : piece.Apart later :=
  have : Std.Symm Piece.Apart := ⟨fun _ _ => Piece.Apart.symm⟩
  heapAt.live_apart.forall member other different

/-- Where a block that is out lies. -/
theorem live_bounds (heapAt : HeapAt heap arenas) (member : piece ∈ live arenas) :
    piece.start + 56 ≤ piece.ptr.toNat ∧
      piece.ptr.toNat + piece.reqSize.toNat < piece.stop ∧ piece.stop ≤ 2 ^ 64 := by
  obtain ⟨arena, isArena, isPiece⟩ := List.mem_flatMap.mp member
  have arenaAt := heapAt.each arena isArena
  obtain ⟨low, high, -⟩ := alignDiff_toNat piece.min
  have isPtr := arenaAt.ptr_toNat isPiece
  have room := (arenaAt.pieces piece isPiece).room
  have noWrap := arenaAt.noWrap
  have below := (arenaAt.bounds isPiece).2
  unfold Piece.stop Piece.start
  omega

/-- A pointer belongs to one block. -/
theorem ptr_inj (heapAt : HeapAt heap arenas) (member : piece ∈ live arenas)
    (other : later ∈ live arenas) (same : piece.ptr = later.ptr) : piece = later := by
  by_contra different
  have apart := heapAt.apart_of_mem member other different
  have bounds := heapAt.live_bounds member
  have otherBounds := heapAt.live_bounds other
  rw [same] at bounds
  unfold Piece.Apart at apart
  omega

/-- The blocks of two callers have no byte in common. -/
theorem separate_of_mem (heapAt : HeapAt heap arenas) (member : piece ∈ live arenas)
    (other : later ∈ live arenas) (different : piece ≠ later) :
    Separate piece.ptr piece.reqSize.toNat later.ptr later.reqSize.toNat := by
  have apart := heapAt.apart_of_mem member other different
  have bounds := heapAt.live_bounds member
  have otherBounds := heapAt.live_bounds other
  unfold Piece.Apart at apart
  exact separate_of_le (by omega) (by omega) (by omega)

end HeapAt

end Nekonix
