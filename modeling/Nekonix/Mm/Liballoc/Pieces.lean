import Nekonix.Mm.Liballoc.Layout

/-!
# Minors that come and go

Linking a minor into a gap, or taking one out, leaves the arena laid out.  No byte changes but
in the headers concerned and in front of the new pointer, so what the other minors give out
keeps its contents.
-/

namespace Nekonix

open FlatMemory DoublyLinked Packing

variable {memory other : Memory} {new bytes reqSize address : U64} {piece later : Piece}
  {arena : Arena} {front back : List Piece}

/-- The arena with a minor between two parts of its minors. -/
def Arena.extend (arena : Arena) (front : List Piece) (new bytes reqSize : U64)
    (back : List Piece) : Arena :=
  { arena with pieces := front ++ ⟨new, bytes.setWidth 32, reqSize.setWidth 32⟩ :: back }

/-- A gap of an arena that takes a minor. -/
structure Gap (arena : Arena) (front : List Piece) (new bytes : U64) (back : List Piece) : Prop where
  split : arena.pieces = front ++ back
  start : new.toNat = gapStart Piece.stop arena.low front
  room : new.toNat + 40 + bytes.toNat ≤ gapStop Piece.start back arena.stop
  enough : 32 ≤ bytes.toNat

namespace Gap

theorem front_stop (gap : Gap arena front new bytes back) (arenaAt : ArenaAt memory arena)
    (member : piece ∈ front) : piece.stop ≤ new.toNat := by
  have packed := arenaAt.packed
  rw [gap.split] at packed
  have inFront := (packed_append.mp packed).1
  rw [← gap.start] at inFront
  exact (inFront.bounds piece member).2.2

theorem back_start (gap : Gap arena front new bytes back) (arenaAt : ArenaAt memory arena)
    (member : piece ∈ back) : new.toNat + 40 + bytes.toNat ≤ piece.start := by
  have packed := arenaAt.packed
  rw [gap.split] at packed
  have inBack := (packed_append.mp packed).2.from_gap gap.room
  exact (inBack.bounds piece member).1

theorem low_le (gap : Gap arena front new bytes back) (arenaAt : ArenaAt memory arena) :
    arena.maj.toNat + 40 ≤ new.toNat := by
  have packed := arenaAt.packed
  rw [gap.split] at packed
  have inFront := (packed_append.mp packed).1.le
  rwa [← gap.start] at inFront

theorem le_stop (gap : Gap arena front new bytes back) (arenaAt : ArenaAt memory arena) :
    new.toNat + 40 + bytes.toNat ≤ arena.stop := by
  have packed := arenaAt.packed
  rw [gap.split] at packed
  exact ((packed_append.mp packed).2.from_gap gap.room).le

theorem front_mem (gap : Gap arena front new bytes back) (member : piece ∈ front) :
    piece ∈ arena.pieces :=
  gap.split ▸ List.mem_append_left _ member

theorem back_mem (gap : Gap arena front new bytes back) (member : piece ∈ back) :
    piece ∈ arena.pieces :=
  gap.split ▸ List.mem_append_right _ member

theorem roomFor (gap : Gap arena front new bytes back) (arenaAt : ArenaAt memory arena) :
    RoomFor arena.maj (leftMin front) (rightMin back) new := by
  have noWrap := arenaAt.noWrap
  have low := gap.low_le arenaAt
  have stop := gap.le_stop arenaAt
  have enough := gap.enough
  have ofFront : ∀ piece ∈ front, arena.maj.toNat + 40 ≤ piece.min.toNat ∧
      piece.min.toNat + 40 ≤ new.toNat := by
    intro piece member
    have below := gap.front_stop arenaAt member
    obtain ⟨above, -⟩ := arenaAt.bounds (gap.front_mem member)
    unfold Piece.stop at below
    omega
  have ofBack : ∀ piece ∈ back, new.toNat + 72 ≤ piece.min.toNat ∧
      piece.min.toNat + 40 ≤ arena.stop := by
    intro piece member
    have above := gap.back_start arenaAt member
    obtain ⟨-, below⟩ := arenaAt.bounds (gap.back_mem member)
    unfold Piece.start at above
    omega
  refine ⟨separate_of_le (by omega) (by omega) (by omega), ?_, ?_, ?_⟩
  · intro nonnull
    obtain ⟨init, piece, rfl, isLeft⟩ := (leftMin_cases front).resolve_left fun h => nonnull h.2
    obtain ⟨above, below⟩ := ofFront piece (by simp)
    rw [isLeft]
    exact ⟨separate_of_le (by omega) (by omega) (by omega),
      separate_of_le (by omega) (by omega) (by omega)⟩
  · intro nonnull
    obtain ⟨piece, rest, rfl, isRight⟩ := (rightMin_cases back).resolve_left fun h => nonnull h.2
    obtain ⟨above, below⟩ := ofBack piece (by simp)
    rw [isRight]
    exact ⟨separate_of_le (by omega) (by omega) (by omega),
      separate_of_le (by omega) (by omega) (by omega)⟩
  · intro leftNonnull rightNonnull
    obtain ⟨init, left, rfl, isLeft⟩ := (leftMin_cases front).resolve_left fun h => leftNonnull h.2
    obtain ⟨right, rest, rfl, isRight⟩ :=
      (rightMin_cases back).resolve_left fun h => rightNonnull h.2
    obtain ⟨-, below⟩ := ofFront left (by simp)
    obtain ⟨above, inside⟩ := ofBack right (by simp)
    rw [isLeft, isRight]
    exact separate_of_le (by omega) (by omega) (by omega)

/-- A minor that was there shares no byte with the new one. -/
theorem separate_new (gap : Gap arena front new bytes back) (arenaAt : ArenaAt memory arena)
    (member : piece ∈ arena.pieces) : Separate piece.min 56 new 56 := by
  have noWrap := arenaAt.noWrap
  have size := arenaAt.size_ge member
  have stop := gap.le_stop arenaAt
  have enough := gap.enough
  have below := (arenaAt.bounds member).2
  rcases List.mem_append.mp (gap.split ▸ member) with inFront | inBack
  · have before := gap.front_stop arenaAt inFront
    unfold Piece.stop at before
    exact separate_of_le (by omega) (by omega) (by omega)
  · have behind := gap.back_start arenaAt inBack
    unfold Piece.start at behind
    exact separate_of_le (by omega) (by omega) (by omega)

end Gap

/-! What relinking leaves alone -/

/-- A change at `min`, and of the links to it between two parts of the minors. -/
structure Relinked (arena : Arena) (memory other : Memory) (front : List Piece) (min : U64)
    (width : Nat) (back : List Piece) (forward backward : U64) : Prop where
  front_mem : ∀ piece ∈ front, piece ∈ arena.pieces
  back_mem : ∀ piece ∈ back, piece ∈ arena.pieces
  across : leftMin front ≠ 0#64 → leftMin front ≠ rightMin back
  atLeft : leftMin front ≠ 0#64 →
    minorAt other (leftMin front) = { minorAt memory (leftMin front) with next := forward }
  atRight : rightMin back ≠ 0#64 →
    minorAt other (rightMin back) = { minorAt memory (rightMin back) with prev := backward }
  outside : ∀ address, ¬InRange arena.maj 40 address → ¬InRange min width address →
    (leftMin front ≠ 0#64 → ¬InRange (leftMin front) 40 address) →
    (rightMin back ≠ 0#64 → ¬InRange (rightMin back) 40 address) → other address = memory address

namespace Relinked

variable {min forward backward : U64} {width : Nat}

/-- A byte that is in no header of the arena and not at the minor concerned. -/
theorem unchanged (relinked : Relinked arena memory other front min width back forward backward)
    (offMajor : ¬InRange arena.maj 40 address) (offMin : ¬InRange min width address)
    (offMinors : ∀ piece ∈ arena.pieces, ¬InRange piece.min 40 address) :
    other address = memory address := by
  refine relinked.outside address offMajor offMin ?_ ?_
  · intro nonnull
    obtain ⟨init, left, isFront, isMin⟩ := (leftMin_cases front).resolve_left fun h => nonnull h.2
    rw [isMin]
    exact offMinors left (relinked.front_mem left (by simp [isFront]))
  · intro nonnull
    obtain ⟨right, rest, isBack, isMin⟩ := (rightMin_cases back).resolve_left fun h => nonnull h.2
    rw [isMin]
    exact offMinors right (relinked.back_mem right (by simp [isBack]))

/-- A minor apart from the one concerned keeps its header, links to that one apart. -/
theorem old (relinked : Relinked arena memory other front min width back forward backward)
    (arenaAt : ArenaAt memory arena) (member : piece ∈ arena.pieces)
    (apart : Separate piece.min 40 min width) :
    minorAt other piece.min =
      { minorAt memory piece.min with
        next := if piece.min = leftMin front then forward else (minorAt memory piece.min).next
        prev := if piece.min = rightMin back then backward else (minorAt memory piece.min).prev } := by
  have nonnull := arenaAt.min_ne_zero member
  by_cases isLeft : piece.min = leftMin front
  · have leftNonnull : leftMin front ≠ 0#64 := isLeft ▸ nonnull
    rw [isLeft, if_pos rfl, if_neg (relinked.across leftNonnull), relinked.atLeft leftNonnull]
  · by_cases isRight : piece.min = rightMin back
    · have rightNonnull : rightMin back ≠ 0#64 := isRight ▸ nonnull
      rw [if_neg isLeft, if_pos isRight, isRight, relinked.atRight rightNonnull]
    · rw [if_neg isLeft, if_neg isRight]
      refine minorAt_congr fun address inside => relinked.outside address ?_ ?_ ?_ ?_
      · exact arenaAt.separate_maj member address inside
      · exact apart address inside
      · intro leftNonnull
        obtain ⟨init, left, isFront, isMin⟩ :=
          (leftMin_cases front).resolve_left fun h => leftNonnull h.2
        rw [isMin] at isLeft ⊢
        have inFront := relinked.front_mem left (by simp [isFront])
        exact arenaAt.separate_mins member inFront isLeft address inside
      · intro rightNonnull
        obtain ⟨right, rest, isBack, isMin⟩ :=
          (rightMin_cases back).resolve_left fun h => rightNonnull h.2
        rw [isMin] at isRight ⊢
        have inBack := relinked.back_mem right (by simp [isBack])
        exact arenaAt.separate_mins member inBack isRight address inside

/-- Outside the arena nothing changes. -/
theorem beyond (relinked : Relinked arena memory other front min width back forward backward)
    (arenaAt : ArenaAt memory arena)
    (within : InRange min width address →
      arena.maj.toNat ≤ address.toNat ∧ address.toNat < arena.stop)
    (outside : ¬(arena.maj.toNat ≤ address.toNat ∧ address.toNat < arena.stop)) :
    other address = memory address := by
  refine relinked.unchanged ?_ (fun inside => outside (within inside)) ?_
  · exact fun inside => outside (arenaAt.reserved_bounds (Or.inl inside))
  · intro piece member inside
    exact outside (arenaAt.reserved_bounds (Or.inr ⟨piece, member, inside.mono (by decide)⟩))

/-- Behind the header of a minor nothing changes. -/
theorem kept (relinked : Relinked arena memory other front min width back forward backward)
    (arenaAt : ArenaAt memory arena) (member : piece ∈ arena.pieces)
    (above : piece.min.toNat + 40 ≤ address.toNat) (below : address.toNat < piece.stop)
    (offMin : ¬InRange min width address) : other address = memory address := by
  refine relinked.unchanged ?_ offMin ?_
  · rw [arenaAt.inRange_maj]
    have start := (arenaAt.bounds member).1
    omega
  · intro further otherMember inside
    rw [arenaAt.inRange_min otherMember (by decide)] at inside
    by_cases same : piece = further
    · rw [same] at above
      omega
    · have order := arenaAt.packed.apart member otherMember same
      unfold Piece.start Piece.stop at order
      unfold Piece.stop at below
      omega

/-- A minor apart from the one concerned stays in use. -/
theorem pieceAt (relinked : Relinked arena memory other front min width back forward backward)
    (arenaAt : ArenaAt memory arena) (member : piece ∈ arena.pieces)
    (apart : Separate piece.min 56 min width) : PieceAt other arena.maj piece := by
  have before := arenaAt.pieces piece member
  have header := relinked.old arenaAt member (apart.mono (by decide) (Nat.le_refl width))
  refine ⟨?_, ?_, ?_, ?_, ?_, before.room⟩
  · rw [header, before.block]
  · rw [header, before.magic]
  · rw [header, before.size]
  · rw [header, before.reqSize]
  · have size := arenaAt.size_ge member
    have inside := diff_inRange piece.min
    have outside := diff_outside piece.min
    have offMin := apart _ inside
    rw [arenaAt.inRange_min member (by decide)] at inside outside
    rw [relinked.kept arenaAt member (by omega) (by unfold Piece.stop; omega) offMin, before.diff]

end Relinked

/-! Linking in -/

/-- Linking a minor in between two parts of the minors. -/
abbrev Arena.LinkedIn (arena : Arena) (memory other : Memory) (front : List Piece)
    (new bytes reqSize : U64) (back : List Piece) : Prop :=
  Nekonix.LinkedIn memory other arena.maj (leftMin front) (rightMin back) new bytes reqSize

theorem Gap.relinked (gap : Gap arena front new bytes back) (arenaAt : ArenaAt memory arena)
    (linked : arena.LinkedIn memory other front new bytes reqSize back) :
    Relinked arena memory other front new 56 back new new where
  front_mem _ member := gap.front_mem member
  back_mem _ member := gap.back_mem member
  across := by
    intro leftNonnull same
    have across := (gap.roomFor arenaAt).across leftNonnull (same ▸ leftNonnull)
    rw [← same] at across
    exact across (leftMin front) (by simp [InRange]) (by simp [InRange])
  atLeft := linked.atLeft
  atRight := linked.atRight
  outside := linked.outside

/-- A minor that is linked in at a gap belongs to the arena. -/
theorem ArenaAt.insert (arenaAt : ArenaAt memory arena) (gap : Gap arena front new bytes back)
    (linked : arena.LinkedIn memory other front new bytes reqSize back)
    (short : bytes.toNat < 2 ^ 32) (fits : reqSize.toNat + 32 ≤ bytes.toNat) :
    ArenaAt other (arena.extend front new bytes reqSize back) := by
  have relinked := gap.relinked arenaAt linked
  have newBytes : (bytes.setWidth 32).toNat = bytes.toNat := by
    rw [BitVec.toNat_setWidth, Nat.mod_eq_of_lt short]
  have newReqSize : (reqSize.setWidth 32).toNat = reqSize.toNat := by
    rw [BitVec.toNat_setWidth, Nat.mod_eq_of_lt (by omega)]
  have packed : Packed Piece.start Piece.stop arena.low
      (front ++ ⟨new, bytes.setWidth 32, reqSize.setWidth 32⟩ :: back) arena.stop := by
    have before := arenaAt.packed
    rw [gap.split] at before
    refine before.insert gap.start.ge (piece_start_le _) ?_
    unfold Piece.stop
    rw [newBytes]
    exact gap.room
  have filled : used Piece.start Piece.stop
      (front ++ ⟨new, bytes.setWidth 32, reqSize.setWidth 32⟩ :: back) =
        used Piece.start Piece.stop arena.pieces + 40 + bytes.toNat := by
    rw [gap.split, used_append, used_append, used_cons]
    unfold Piece.stop Piece.start
    rw [newBytes]
    omega
  refine ⟨arenaAt.nonnull, arenaAt.noWrap, arenaAt.short, ?_, ?_, ?_, ?_, packed, ?_, ?_⟩
  · change (majorAt other arena.maj).pages = arena.pages
    rw [linked.atMajor, ← arenaAt.pages]
  · change (majorAt other arena.maj).size = arena.pages * lPageSize
    rw [linked.atMajor, ← arenaAt.size]
  · have inside := packed.used_le
    have usage := arenaAt.usage
    have short := arenaAt.short
    change (majorAt other arena.maj).usage.toNat = 40 + used Piece.start Piece.stop
      (front ++ ⟨new, bytes.setWidth 32, reqSize.setWidth 32⟩ :: back)
    rw [filled] at inside ⊢
    rw [linked.atMajor]
    unfold Arena.low Arena.stop at inside
    unfold sizeofMinor
    bv_omega
  · change (majorAt other arena.maj).first = ((front ++ _ :: back).map Piece.min).headD 0#64
    rw [linked.atMajor]
    rcases leftMin_cases front with ⟨rfl, isNull⟩ | ⟨init, left, rfl, isMin⟩
    · dsimp only
      rw [isNull, if_pos rfl]
      rfl
    · have isLeft : left ∈ init ++ [left] := by simp
      have nonnull := arenaAt.min_ne_zero (gap.front_mem isLeft)
      have before := arenaAt.first
      rw [Arena.mins, gap.split] at before
      dsimp only
      rw [isMin, if_neg nonnull, before]
      cases init <;> rfl
  · have chain := arenaAt.chain
    have distinct := arenaAt.nodup
    have links : ∀ min ∈ front.map Piece.min ++ back.map Piece.min, minorAt other min =
        { minorAt memory min with
          next := if min = leftMin front then new else (minorAt memory min).next
          prev := if min = rightMin back then new else (minorAt memory min).prev } := by
      intro min member
      rw [← List.map_append, ← gap.split] at member
      obtain ⟨piece, isPiece, rfl⟩ := List.mem_map.mp member
      exact relinked.old arenaAt isPiece
        ((gap.separate_new arenaAt isPiece).mono (by decide) (Nat.le_refl 56))
    have nonnull : ∀ min ∈ front.map Piece.min ++ back.map Piece.min, min ≠ 0#64 := by
      intro min member
      rw [← List.map_append, ← gap.split] at member
      obtain ⟨piece, isPiece, rfl⟩ := List.mem_map.mp member
      exact arenaAt.min_ne_zero isPiece
    rw [Arena.mins, gap.split, List.map_append] at chain distinct
    have isMins : (arena.extend front new bytes reqSize back).mins =
        front.map Piece.min ++ new :: back.map Piece.min := by
      simp [Arena.mins, Arena.extend]
    rw [isMins]
    refine chain.link distinct nonnull ?_ ?_ ?_ ?_
    · rw [linked.atNew]
      rfl
    · rw [linked.atNew]
      rfl
    · intro min member
      rw [links min member]
      rfl
    · intro min member
      rw [links min member]
      rfl
  · have old : ∀ piece ∈ arena.pieces, PieceAt other arena.maj piece := fun piece member =>
      relinked.pieceAt arenaAt member (gap.separate_new arenaAt member)
    intro piece member
    rcases List.mem_append.mp member with inFront | isNew
    · exact old piece (gap.front_mem inFront)
    · rcases List.mem_cons.mp isNew with rfl | inBack
      · refine ⟨?_, ?_, ?_, ?_, linked.diff, ?_⟩
        · rw [linked.atNew]
          rfl
        · rw [linked.atNew]
        · rw [linked.atNew]
        · rw [linked.atNew]
        · rw [newBytes, newReqSize]
          exact fits
      · exact old piece (gap.back_mem inBack)

/-! Taking out -/

/-- The arena with fewer minors. -/
def Arena.keep (arena : Arena) (front back : List Piece) : Arena :=
  { arena with pieces := front ++ back }

/-- Taking a minor out from between two parts of the minors. -/
abbrev Arena.LinkedOut (arena : Arena) (memory other : Memory) (front : List Piece) (piece : Piece)
    (back : List Piece) : Prop :=
  Nekonix.LinkedOut memory other arena.maj (leftMin front) (rightMin back) piece.min

namespace ArenaAt

theorem cut_mem (split : arena.pieces = front ++ piece :: back) (member : later ∈ front ++ back) :
    later ∈ arena.pieces := by
  rw [split]
  rcases List.mem_append.mp member with inFront | inBack
  · exact List.mem_append_left _ inFront
  · exact List.mem_append_right _ (List.mem_cons_of_mem _ inBack)

theorem cut_ne (arenaAt : ArenaAt memory arena) (split : arena.pieces = front ++ piece :: back)
    (member : later ∈ front ++ back) : later.min ≠ piece.min := by
  have distinct := arenaAt.nodup
  rw [Arena.mins, split, List.map_append, List.map_cons, List.nodup_middle] at distinct
  intro same
  refine (List.nodup_cons.mp distinct).1 ?_
  rw [← same, ← List.map_append]
  exact List.mem_map_of_mem member

/-- The other minors share no byte with the one that is taken out. -/
theorem separate_cut (arenaAt : ArenaAt memory arena) (split : arena.pieces = front ++ piece :: back)
    (member : later ∈ front ++ back) : Separate later.min 56 piece.min 40 := by
  have noWrap := arenaAt.noWrap
  have isPiece : piece ∈ arena.pieces := by simp [split]
  have isLater := cut_mem split member
  have size := arenaAt.size_ge isLater
  have below := (arenaAt.bounds isPiece).2
  have laterBelow := (arenaAt.bounds isLater).2
  have order := arenaAt.packed.apart isLater isPiece fun same =>
    arenaAt.cut_ne split member (congrArg Piece.min same)
  unfold Piece.stop Piece.start at order
  exact separate_of_le (by omega) (by omega) (by omega)

/-- The links of a minor lead to its neighbours. -/
theorem links (arenaAt : ArenaAt memory arena) (split : arena.pieces = front ++ piece :: back) :
    (minorAt memory piece.min).prev = leftMin front ∧
      (minorAt memory piece.min).next = rightMin back := by
  have chain := arenaAt.chain
  rw [Arena.mins, split, List.map_append, List.map_cons] at chain
  exact chain.links

theorem apartFrom (arenaAt : ArenaAt memory arena) (split : arena.pieces = front ++ piece :: back) :
    ApartFrom arena.maj (leftMin front) (rightMin back) piece.min := by
  have isPiece : piece ∈ arena.pieces := by simp [split]
  have ofOthers : ∀ later ∈ front ++ back,
      Separate piece.min 40 later.min 40 ∧ Separate later.min 40 arena.maj 40 := by
    intro later member
    refine ⟨?_, arenaAt.separate_maj (cut_mem split member)⟩
    exact ((arenaAt.separate_cut split member).mono (by decide) (Nat.le_refl 40)).symm
  refine ⟨arenaAt.separate_maj isPiece, ?_, ?_, ?_⟩
  · intro nonnull
    obtain ⟨init, left, rfl, isMin⟩ := (leftMin_cases front).resolve_left fun h => nonnull h.2
    rw [isMin]
    exact ofOthers left (by simp)
  · intro nonnull
    obtain ⟨right, rest, rfl, isMin⟩ := (rightMin_cases back).resolve_left fun h => nonnull h.2
    rw [isMin]
    exact ofOthers right (by simp)
  · intro leftNonnull rightNonnull
    obtain ⟨init, left, rfl, isLeft⟩ := (leftMin_cases front).resolve_left fun h => leftNonnull h.2
    obtain ⟨right, rest, rfl, isRight⟩ :=
      (rightMin_cases back).resolve_left fun h => rightNonnull h.2
    rw [isLeft, isRight]
    have ordered := arenaAt.packed.pairwise
    rw [split] at ordered
    have order := (List.pairwise_append.mp ordered).2.2 left (by simp) right (by simp)
    have isLeft : left ∈ arena.pieces := cut_mem split (by simp)
    have isRight : right ∈ arena.pieces := cut_mem split (by simp)
    have noWrap := arenaAt.noWrap
    have leftBelow := (arenaAt.bounds isLeft).2
    have rightBelow := (arenaAt.bounds isRight).2
    unfold Piece.stop Piece.start at order
    exact separate_of_le (by omega) (by omega) (by omega)

theorem relinked (arenaAt : ArenaAt memory arena) (split : arena.pieces = front ++ piece :: back)
    (linked : arena.LinkedOut memory other front piece back) :
    Relinked arena memory other front piece.min 40 back (rightMin back) (leftMin front) where
  front_mem _ member := cut_mem split (List.mem_append_left _ member)
  back_mem _ member := cut_mem split (List.mem_append_right _ member)
  across := by
    intro leftNonnull same
    have across := (arenaAt.apartFrom split).across leftNonnull (same ▸ leftNonnull)
    rw [← same] at across
    exact across (leftMin front) (by simp [InRange]) (by simp [InRange])
  atLeft := linked.atLeft
  atRight := linked.atRight
  outside := linked.outside

/-- Without the minor that was taken out the arena is laid out. -/
theorem remove (arenaAt : ArenaAt memory arena) (split : arena.pieces = front ++ piece :: back)
    (linked : arena.LinkedOut memory other front piece back) :
    ArenaAt other (arena.keep front back) := by
  have relinked := arenaAt.relinked split linked
  have isPiece : piece ∈ arena.pieces := by simp [split]
  have packed : Packed Piece.start Piece.stop arena.low (front ++ back) arena.stop := by
    have before := arenaAt.packed
    rw [split] at before
    exact before.remove
  have filled : used Piece.start Piece.stop arena.pieces =
      used Piece.start Piece.stop (front ++ back) + 40 + piece.size.toNat := by
    rw [split, used_append, used_append, used_cons]
    unfold Piece.stop Piece.start
    omega
  refine ⟨arenaAt.nonnull, arenaAt.noWrap, arenaAt.short, ?_, ?_, ?_, ?_, packed, ?_, ?_⟩
  · change (majorAt other arena.maj).pages = arena.pages
    rw [linked.atMajor, ← arenaAt.pages]
  · change (majorAt other arena.maj).size = arena.pages * lPageSize
    rw [linked.atMajor, ← arenaAt.size]
  · have inside := arenaAt.packed.used_le
    have usage := arenaAt.usage
    have short := arenaAt.short
    change (majorAt other arena.maj).usage.toNat = 40 + used Piece.start Piece.stop (front ++ back)
    rw [filled] at inside usage
    rw [linked.atMajor, (arenaAt.pieces piece isPiece).size]
    unfold Arena.low Arena.stop at inside
    unfold sizeofMinor
    bv_omega
  · change (majorAt other arena.maj).first = ((front ++ back).map Piece.min).headD 0#64
    rw [linked.atMajor]
    rcases leftMin_cases front with ⟨rfl, isNull⟩ | ⟨init, left, rfl, isMin⟩
    · dsimp only
      rw [isNull, if_pos rfl]
      rfl
    · have isLeft : left ∈ arena.pieces := cut_mem split (by simp)
      have before := arenaAt.first
      rw [Arena.mins, split] at before
      dsimp only
      rw [isMin, if_neg (arenaAt.min_ne_zero isLeft), before]
      cases init <;> rfl
  · have chain := arenaAt.chain
    have distinct := arenaAt.nodup
    have links : ∀ min ∈ front.map Piece.min ++ back.map Piece.min, min ≠ 0#64 ∧
        minorAt other min =
          { minorAt memory min with
            next := if min = leftMin front then rightMin back else (minorAt memory min).next
            prev := if min = rightMin back then leftMin front else (minorAt memory min).prev } := by
      intro min member
      rw [← List.map_append] at member
      obtain ⟨later, isLater, rfl⟩ := List.mem_map.mp member
      have old := cut_mem split isLater
      refine ⟨arenaAt.min_ne_zero old, relinked.old arenaAt old ?_⟩
      exact (arenaAt.separate_cut split isLater).mono (by decide) (Nat.le_refl 40)
    rw [Arena.mins, split, List.map_append, List.map_cons] at chain distinct
    have fewer : (front.map Piece.min ++ back.map Piece.min).Nodup :=
      (List.nodup_cons.mp (List.nodup_middle.mp distinct)).2
    have isMins : (arena.keep front back).mins = front.map Piece.min ++ back.map Piece.min :=
      List.map_append
    rw [isMins]
    refine chain.unlink fewer (fun min member => (links min member).1) ?_ ?_
    · intro min member
      rw [(links min member).2]
      rfl
    · intro min member
      rw [(links min member).2]
      rfl
  · intro later member
    exact relinked.pieceAt arenaAt (cut_mem split member) (arenaAt.separate_cut split member)

end ArenaAt

end Nekonix
