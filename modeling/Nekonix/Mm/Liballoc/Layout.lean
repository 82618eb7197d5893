import Nekonix.Library.DoublyLinked
import Nekonix.Library.Packing
import Nekonix.Mm.Liballoc.Headers

/-!
# The layout of the heap

Each major begins a span of pages.  Its minors lie in it one behind the other, each with the
memory that it gives out, and are linked in that order.  The layout depends on the headers and
on the bytes in front of the pointers that were given out, and on no other byte.
-/

namespace Nekonix

open FlatMemory DoublyLinked Packing

/-- A minor in use. -/
structure Piece where
  min : U64
  size : U32
  reqSize : U32
deriving DecidableEq

namespace Piece

def start (piece : Piece) : Nat := piece.min.toNat

/-- Behind the last byte that belongs to the minor. -/
def stop (piece : Piece) : Nat := piece.min.toNat + 40 + piece.size.toNat

/-- The pointer that was given out. -/
def ptr (piece : Piece) : U64 := userPtr piece.min

end Piece

/-- A major and its minors, by address. -/
structure Arena where
  maj : U64
  pages : U32
  pieces : List Piece

namespace Arena

/-- Where the minors may begin. -/
def low (arena : Arena) : Nat := arena.maj.toNat + 40

/-- Behind the last byte of the pages. -/
def stop (arena : Arena) : Nat := arena.maj.toNat + arena.pages.toNat * 4096

def mins (arena : Arena) : List U64 := arena.pieces.map Piece.min

/-- The sizes of the minors. -/
def inuse (arena : Arena) : Nat := (arena.pieces.map fun piece => piece.size.toNat).sum

/-- The bytes that the heap keeps for itself. -/
def Reserved (arena : Arena) (address : U64) : Prop :=
  InRange arena.maj 40 address ∨ ∃ piece ∈ arena.pieces, InRange piece.min 56 address

end Arena

/-- The header of a minor in use, and the distance of the pointer from it. -/
structure PieceAt (memory : Memory) (maj : U64) (piece : Piece) : Prop where
  block : (minorAt memory piece.min).block = maj
  magic : (minorAt memory piece.min).magic = liballocMagic
  size : (minorAt memory piece.min).size = piece.size
  reqSize : (minorAt memory piece.min).reqSize = piece.reqSize
  diff : memory (userPtr piece.min - alignInfo) = (alignDiff piece.min).setWidth 8
  room : piece.reqSize.toNat + 32 ≤ piece.size.toNat

structure ArenaAt (memory : Memory) (arena : Arena) : Prop where
  nonnull : arena.maj ≠ 0#64
  noWrap : arena.stop ≤ 2 ^ 64
  short : arena.pages.toNat * 4096 < 2 ^ 32
  pages : (majorAt memory arena.maj).pages = arena.pages
  size : (majorAt memory arena.maj).size = arena.pages * lPageSize
  usage : (majorAt memory arena.maj).usage.toNat = 40 + used Piece.start Piece.stop arena.pieces
  first : (majorAt memory arena.maj).first = arena.mins.headD 0#64
  packed : Packed Piece.start Piece.stop arena.low arena.pieces arena.stop
  chain : Chain (fun min => (minorAt memory min).next) (fun min => (minorAt memory min).prev) 0#64
    arena.mins 0#64
  pieces : ∀ piece ∈ arena.pieces, PieceAt memory arena.maj piece

/-- Neither of two arenas reaches into the other. -/
def Arena.Beside (arena other : Arena) : Prop :=
  arena.stop ≤ other.maj.toNat ∨ other.stop ≤ arena.maj.toNat

/-- The arenas in the order of their list. -/
structure HeapAt (heap : Liballoc) (arenas : List Arena) : Prop where
  root : heap.memRoot = (arenas.map Arena.maj).headD 0#64
  chain : Chain (fun maj => (majorAt heap.memory maj).next)
    (fun maj => (majorAt heap.memory maj).prev) 0#64 (arenas.map Arena.maj) 0#64
  each : ∀ arena ∈ arenas, ArenaAt heap.memory arena
  beside : arenas.Pairwise Arena.Beside
  bestBet : heap.bestBet = 0#64 ∨ heap.bestBet ∈ arenas.map Arena.maj
  allocated : heap.allocated =
    BitVec.ofNat 64 (arenas.map fun arena => arena.pages.toNat * 4096).sum
  inuse : heap.inuse = BitVec.ofNat 64 (arenas.map Arena.inuse).sum

variable {heap : Liballoc} {memory other : Memory} {maj address : U64} {piece later : Piece}
  {arena further : Arena} {front back : List Piece} {arenas : List Arena}

/-! Positions -/

theorem piece_start_le (piece : Piece) : piece.start ≤ piece.stop := by
  unfold Piece.start Piece.stop
  omega

namespace ArenaAt

theorem bounds (arenaAt : ArenaAt memory arena) (member : piece ∈ arena.pieces) :
    arena.maj.toNat + 40 ≤ piece.min.toNat ∧ piece.min.toNat + 40 + piece.size.toNat ≤ arena.stop := by
  obtain ⟨above, -, below⟩ := arenaAt.packed.bounds piece member
  exact ⟨above, below⟩

/-- A minor has room for the distance. -/
theorem size_ge (arenaAt : ArenaAt memory arena) (member : piece ∈ arena.pieces) :
    32 ≤ piece.size.toNat := by
  have room := (arenaAt.pieces piece member).room
  omega

theorem min_ne_zero (arenaAt : ArenaAt memory arena) (member : piece ∈ arena.pieces) :
    piece.min ≠ 0#64 := by
  obtain ⟨above, -⟩ := arenaAt.bounds member
  bv_omega

theorem stop_ge (arenaAt : ArenaAt memory arena) : arena.maj.toNat + 40 ≤ arena.stop :=
  arenaAt.packed.le

theorem inRange_maj (arenaAt : ArenaAt memory arena) :
    InRange arena.maj 40 address ↔
      arena.maj.toNat ≤ address.toNat ∧ address.toNat < arena.maj.toNat + 40 := by
  have stop := arenaAt.stop_ge
  have noWrap := arenaAt.noWrap
  exact inRange_iff_toNat (by omega)

theorem inRange_min {count : Nat} (arenaAt : ArenaAt memory arena) (member : piece ∈ arena.pieces)
    (within : count ≤ 72) :
    InRange piece.min count address ↔
      piece.min.toNat ≤ address.toNat ∧ address.toNat < piece.min.toNat + count := by
  have noWrap := arenaAt.noWrap
  have size := arenaAt.size_ge member
  obtain ⟨-, below⟩ := arenaAt.bounds member
  exact inRange_iff_toNat (by omega)

/-- What the heap keeps for itself lies in the arena. -/
theorem reserved_bounds (arenaAt : ArenaAt memory arena) (reserved : arena.Reserved address) :
    arena.maj.toNat ≤ address.toNat ∧ address.toNat < arena.stop := by
  rcases reserved with inMajor | ⟨piece, member, inMinor⟩
  · have stop := arenaAt.stop_ge
    rw [arenaAt.inRange_maj] at inMajor
    omega
  · have size := arenaAt.size_ge member
    obtain ⟨above, below⟩ := arenaAt.bounds member
    rw [arenaAt.inRange_min member (by decide)] at inMinor
    omega

/-- The links of a major do not matter to its arena. -/
theorem relinkMajor (arenaAt : ArenaAt memory arena) {prev next : U64}
    (major : majorAt other arena.maj = { majorAt memory arena.maj with prev := prev, next := next })
    (agree : ∀ piece ∈ arena.pieces, ∀ address, InRange piece.min 56 address →
      other address = memory address) :
    ArenaAt other arena := by
  have sameMinor : ∀ piece ∈ arena.pieces,
      minorAt other piece.min = minorAt memory piece.min := fun piece member =>
    minorAt_congr fun address inside => agree piece member address (inside.mono (by decide))
  have ofMins : ∀ min ∈ arena.mins, minorAt other min = minorAt memory min := by
    intro min member
    obtain ⟨piece, isPiece, rfl⟩ := List.mem_map.mp member
    exact sameMinor piece isPiece
  refine ⟨arenaAt.nonnull, arenaAt.noWrap, arenaAt.short, ?_, ?_, ?_, ?_, arenaAt.packed, ?_, ?_⟩
  · rw [major, arenaAt.pages]
  · rw [major, arenaAt.size]
  · rw [major, arenaAt.usage]
  · rw [major, arenaAt.first]
  · refine arenaAt.chain.congr ?_ ?_
    · intro min member
      rw [ofMins min member]
    · intro min member
      rw [ofMins min member]
  · intro piece member
    have before := arenaAt.pieces piece member
    refine ⟨?_, ?_, ?_, ?_, ?_, before.room⟩
    · rw [sameMinor piece member, before.block]
    · rw [sameMinor piece member, before.magic]
    · rw [sameMinor piece member, before.size]
    · rw [sameMinor piece member, before.reqSize]
    · rw [agree piece member _ (diff_inRange piece.min), before.diff]

/-- An arena is what it was where the bytes that the heap keeps for itself are. -/
theorem congr (arenaAt : ArenaAt memory arena)
    (agree : ∀ address, arena.Reserved address → other address = memory address) :
    ArenaAt other arena := by
  have major : majorAt other arena.maj =
      { majorAt memory arena.maj with
        prev := (majorAt memory arena.maj).prev
        next := (majorAt memory arena.maj).next } :=
    majorAt_congr fun address inside => agree address (Or.inl inside)
  refine arenaAt.relinkMajor major ?_
  exact fun piece member address inside => agree address (Or.inr ⟨piece, member, inside⟩)

/-- The minors lie apart, in their order. -/
theorem stop_le (arenaAt : ArenaAt memory arena) (split : arena.pieces = front ++ piece :: back)
    (member : later ∈ back) : piece.stop ≤ later.start := by
  have ordered := arenaAt.packed.pairwise
  rw [split] at ordered
  exact (List.pairwise_cons.mp (List.pairwise_append.mp ordered).2.1).1 later member

theorem separate_mins (arenaAt : ArenaAt memory arena) (member : piece ∈ arena.pieces)
    (other : later ∈ arena.pieces) (different : piece.min ≠ later.min) :
    Separate piece.min 40 later.min 40 := by
  have noWrap := arenaAt.noWrap
  have below := (arenaAt.bounds member).2
  have otherBelow := (arenaAt.bounds other).2
  have order := arenaAt.packed.apart member other fun same => different (congrArg Piece.min same)
  unfold Piece.stop Piece.start at order
  exact separate_of_le (by omega) (by omega) (by omega)

theorem separate_maj (arenaAt : ArenaAt memory arena) (member : piece ∈ arena.pieces) :
    Separate piece.min 40 arena.maj 40 := by
  have noWrap := arenaAt.noWrap
  obtain ⟨above, below⟩ := arenaAt.bounds member
  exact separate_of_le (by omega) (by omega) (by omega)

theorem nodup (arenaAt : ArenaAt memory arena) : arena.mins.Nodup := by
  refine List.pairwise_map.mpr (arenaAt.packed.pairwise.imp_of_mem ?_)
  intro piece later member _ ordered same
  have size := arenaAt.size_ge member
  unfold Piece.stop Piece.start at ordered
  rw [same] at ordered
  omega

end ArenaAt

/-! Neighbours -/

/-- The last of some minors, or NULL. -/
def leftMin (pieces : List Piece) : U64 := (pieces.map Piece.min).getLastD 0#64

/-- The first of some minors, or NULL. -/
def rightMin (pieces : List Piece) : U64 := (pieces.map Piece.min).headD 0#64

theorem leftMin_cases (pieces : List Piece) :
    pieces = [] ∧ leftMin pieces = 0#64 ∨
      ∃ init piece, pieces = init ++ [piece] ∧ leftMin pieces = piece.min := by
  rcases List.eq_nil_or_concat pieces with rfl | ⟨init, piece, rfl⟩
  · exact Or.inl ⟨rfl, rfl⟩
  · exact Or.inr ⟨init, piece, List.concat_eq_append .., by simp [leftMin]⟩

theorem rightMin_cases (pieces : List Piece) :
    pieces = [] ∧ rightMin pieces = 0#64 ∨
      ∃ piece rest, pieces = piece :: rest ∧ rightMin pieces = piece.min := by
  cases pieces with
  | nil => exact Or.inl ⟨rfl, rfl⟩
  | cons piece rest => exact Or.inr ⟨piece, rest, rfl, rfl⟩

end Nekonix
