import Nekonix.Mm.Liballoc.Arenas

/-!
# The search for a place

`kmalloc` walks the arenas, and the minors of each, for the first gap that is large enough.  It
asks for pages only if no arena has one.
-/

namespace Nekonix

open FlatMemory DoublyLinked Packing

variable {heap after : Liballoc} {memory : Memory} {new bytes reqSize page address : U64}
  {piece : Piece} {arena : Arena} {arenas further front back : List Arena}
  {before behind : List Piece} {result : U64 × Liballoc}

/-- The minors in use. -/
def live (arenas : List Arena) : List Piece := arenas.flatMap Arena.pieces

/-- The pages of the arenas, as they were given. -/
def spans (arenas : List Arena) : List (U64 × U32) :=
  arenas.map fun arena => (arena.maj, arena.pages)

/-- Every arena has a minor. -/
def Occupied (arenas : List Arena) : Prop := ∀ arena ∈ arenas, arena.pieces ≠ []

/-- A byte that the heap keeps for itself. -/
def Kept (arenas : List Arena) (address : U64) : Prop :=
  ∃ arena ∈ arenas, arena.Reserved address

namespace Liballoc

/-- The lock and the counters. -/
def books (heap : Liballoc) : Bool × U64 × U64 × U64 :=
  (heap.locked, heap.warningCount, heap.errorCount, heap.possibleOverruns)

/-- The pages to come and the calls for pages. -/
def pages (heap : Liballoc) : List U64 × List PageCall := (heap.supply, heap.pageCalls)

end Liballoc

/-- There is a gap in the arena for a minor with `need` bytes, its header among them. -/
def Arena.HasGap (arena : Arena) (need : Nat) : Prop :=
  Packing.HasGap Piece.start Piece.stop arena.low arena.pieces arena.stop need

/-- The request is met by a new minor. -/
structure MinorGranted (heap : Liballoc) (arenas : List Arena) (reqSize : U64)
    (result : U64 × Liballoc) (piece : Piece) (further : List Arena) : Prop where
  ptr : result.1 = piece.ptr
  heapAt : HeapAt result.2 further
  live : (live further).Perm (piece :: live arenas)
  size : piece.size.toNat = reqSize.toNat + 32
  reqSize : piece.reqSize.toNat = reqSize.toNat
  kept : ∀ address, ¬Kept further address → result.2.memory address = heap.memory address
  books : result.2.books = heap.books

/-! A place in an arena -/

/-- What the search compares: the room between a minor and the one behind it. -/
theorem gap_toNat {last : U64} {limit : Nat} (isLast : last.toNat = limit % 2 ^ 64)
    (below : piece.stop ≤ limit) (noWrap : limit ≤ 2 ^ 64) :
    (last - piece.min - sizeofMinor - piece.size.setWidth 64).toNat = limit - piece.stop := by
  unfold Piece.stop at *
  unfold sizeofMinor
  bv_omega

theorem need_toNat (short : bytes.toNat + 40 < 2 ^ 32) :
    (bytes + sizeofMinor).toNat = bytes.toNat + 40 := by
  unfold sizeofMinor
  bv_omega

theorem Occupied.replace {changed : Arena} (occupied : Occupied (front ++ arena :: back))
    (nonempty : changed.pieces ≠ []) : Occupied (front ++ changed :: back) := by
  intro further member
  rcases List.mem_append.mp member with inFront | inBack
  · exact occupied further (List.mem_append_left _ inFront)
  · rcases List.mem_cons.mp inBack with rfl | behind
    · exact nonempty
    · exact occupied further (List.mem_append_right _ (List.mem_cons_of_mem _ behind))

theorem Gap.hasGap (gap : Gap arena before new bytes behind) : arena.HasGap (bytes.toNat + 40) := by
  have start := gap.start
  have room := gap.room
  exact ⟨before, behind, gap.split, by omega⟩

/-- A gap of the arena was found and taken. -/
def PlacedIn (heap : Liballoc) (arena : Arena) (bytes reqSize : U64) (result : U64 × Liballoc) :
    Prop :=
  ∃ before new behind, Gap arena before new bytes behind ∧
    MinorPlaced heap result arena.maj (leftMin before) (rightMin behind) new bytes reqSize

theorem ArenaAt.end_toNat (arenaAt : ArenaAt memory arena) :
    (arena.maj + (majorAt memory arena.maj).size.setWidth 64).toNat = arena.stop % 2 ^ 64 := by
  rw [arenaAt.size, pageBytes arenaAt.short, BitVec.toNat_add, BitVec.toNat_ofNat, Nat.add_mod_mod]
  rfl

theorem ArenaAt.length_lt (arenaAt : ArenaAt memory arena) : arena.pieces.length < 2 ^ 64 := by
  rw [← List.length_map Piece.min]
  refine length_lt_of_nodup arenaAt.nodup fun min member => ?_
  obtain ⟨piece, isPiece, rfl⟩ := List.mem_map.mp member
  exact arenaAt.min_ne_zero isPiece

section InArena

variable (reqSize) (arenaAt : ArenaAt heap.memory arena) (short : bytes.toNat + 40 < 2 ^ 32)
  (enough : 32 ≤ bytes.toNat)
include arenaAt short enough

/-- The gap behind a minor. -/
theorem gapAfter (split : arena.pieces = before ++ piece :: behind)
    (room : piece.stop + 40 + bytes.toNat ≤ gapStop Piece.start behind arena.stop) :
    Gap arena (before ++ [piece]) (minorEnd heap piece.min) bytes behind := by
  have isPiece : piece ∈ arena.pieces := by simp [split]
  have isSize := (arenaAt.pieces piece isPiece).size
  have inside : gapStop Piece.start behind arena.stop ≤ arena.stop := by
    have packed := arenaAt.packed
    rw [split] at packed
    obtain ⟨-, -, -, behindPacked⟩ := packed_append.mp packed
    exact (behindPacked.from_gap le_rfl).le
  have isEnd : (minorEnd heap piece.min).toNat = piece.stop := by
    have noWrap := arenaAt.noWrap
    rw [minorEnd, Liballoc.read_minorSize, isSize]
    unfold Piece.stop at *
    unfold sizeofMinor
    bv_omega
  refine ⟨by simp [split], ?_, ?_, enough⟩
  · rw [isEnd, gapStart_append_singleton]
  · rw [isEnd]
    exact room

/-- The loop over the minors from one that is in front of `behind`. -/
theorem mallocBetween_spec {fuel : Nat} (long : behind.length + 1 < fuel)
    (split : arena.pieces = before ++ piece :: behind) :
    (∃ result, mallocBetween heap arena.maj bytes reqSize fuel piece.min = some (some result) ∧
        PlacedIn heap arena bytes reqSize result) ∨
      mallocBetween heap arena.maj bytes reqSize fuel piece.min = some none ∧
        ¬HasGap Piece.start Piece.stop piece.stop behind arena.stop (bytes.toNat + 40) := by
  induction behind generalizing before piece fuel with
  | nil =>
      obtain ⟨fuel, rfl⟩ := Nat.exists_eq_succ_of_ne_zero (Nat.ne_of_gt (Nat.zero_lt_of_lt long))
      obtain ⟨fuel, rfl⟩ := Nat.exists_eq_succ_of_ne_zero (Nat.ne_of_gt (Nat.lt_of_succ_lt_succ long))
      have isPiece : piece ∈ arena.pieces := by simp [split]
      have nonnull := arenaAt.min_ne_zero isPiece
      have below := (arenaAt.bounds isPiece).2
      have isSize := (arenaAt.pieces piece isPiece).size
      have isNext : (minorAt heap.memory piece.min).next = 0#64 := (arenaAt.links split).2
      have isLeft : leftMin (before ++ [piece]) = piece.min := by simp [leftMin]
      have room := gap_toNat arenaAt.end_toNat below arenaAt.noWrap
      rw [hasGap_nil]
      simp only [mallocBetween, if_neg nonnull, Liballoc.read_minorNext, Liballoc.read_majorSize,
        Liballoc.read_minorSize, isNext, isSize, ge_iff_le, BitVec.le_def, room, need_toNat short]
      by_cases fits : bytes.toNat + 40 ≤ arena.stop - piece.stop
      · have gap := gapAfter arenaAt short enough split (by rw [gapStop_nil]; omega)
        refine Or.inl ⟨_, if_pos ⟨trivial, fits⟩, _, _, _, gap, ?_⟩
        rw [isLeft]
        exact placeLast_placed rfl nonnull (isLeft ▸ gap.roomFor arenaAt)
      · refine Or.inr ⟨?_, ?_⟩
        · simp [fits]
        · unfold Piece.stop at *
          omega
  | cons next rest inductionHypothesis =>
      obtain ⟨fuel, rfl⟩ := Nat.exists_eq_succ_of_ne_zero (Nat.ne_of_gt (Nat.zero_lt_of_lt long))
      have isPiece : piece ∈ arena.pieces := by simp [split]
      have isLater : next ∈ arena.pieces := by simp [split]
      have nonnull := arenaAt.min_ne_zero isPiece
      have laterNonnull := arenaAt.min_ne_zero isLater
      have isSize := (arenaAt.pieces piece isPiece).size
      have isNext : (minorAt heap.memory piece.min).next = next.min := (arenaAt.links split).2
      have isLeft : leftMin (before ++ [piece]) = piece.min := by simp [leftMin]
      have order : piece.stop ≤ next.min.toNat := arenaAt.stop_le split List.mem_cons_self
      have room := gap_toNat (Nat.mod_eq_of_lt next.min.isLt).symm order next.min.isLt.le
      have onward := inductionHypothesis (Nat.lt_of_succ_lt_succ long)
        (split.trans (List.append_cons before piece (next :: rest)))
      rw [hasGap_cons]
      simp only [mallocBetween, if_neg nonnull, Liballoc.read_minorNext, Liballoc.read_majorSize,
        Liballoc.read_minorSize, isNext, isSize, laterNonnull, ge_iff_le, BitVec.le_def, room,
        need_toNat short, false_and, if_false, ne_eq, not_false_eq_true, true_and]
      by_cases fits : bytes.toNat + 40 ≤ next.min.toNat - piece.stop
      · have wide : piece.stop + 40 + bytes.toNat ≤
            gapStop Piece.start (next :: rest) arena.stop := by
          rw [gapStop_cons]
          unfold Piece.start
          omega
        have gap := gapAfter arenaAt short enough split wide
        refine Or.inl ⟨_, if_pos fits, _, _, _, gap, ?_⟩
        rw [isLeft]
        exact placeBetween_placed rfl isNext nonnull laterNonnull (isLeft ▸ gap.roomFor arenaAt)
      · rw [if_neg fits]
        refine onward.imp_right ?_
        rintro ⟨isNone, noGap⟩
        refine ⟨isNone, ?_⟩
        rintro (here | later)
        · unfold Piece.start at here
          omega
        · exact noGap later

/-- `CASE 2` to `CASE 4`, in an arena with enough room in all. -/
theorem mallocInBlock_spec
    (free : arena.low + used Piece.start Piece.stop arena.pieces + (bytes.toNat + 40) ≤ arena.stop) :
    (∃ result, mallocInBlock heap arena.maj bytes reqSize = some (some result) ∧
        PlacedIn heap arena bytes reqSize result) ∨
      mallocInBlock heap arena.maj bytes reqSize = some none ∧
        ¬arena.HasGap (bytes.toNat + 40) := by
  have noWrap := arenaAt.noWrap
  have isFront : (arena.maj + sizeofMajor).toNat = arena.low := by
    unfold Arena.low at *
    unfold sizeofMajor
    bv_omega
  have first := arenaAt.first
  unfold mallocInBlock
  rw [Liballoc.read_majorFirst, first]
  cases isPieces : arena.pieces with
  | nil =>
      have isNull : arena.mins.headD 0#64 = 0#64 := by simp [Arena.mins, isPieces]
      have gap : Gap arena [] (arena.maj + sizeofMajor) bytes [] := by
        refine ⟨isPieces, isFront, ?_, enough⟩
        rw [isPieces, used_nil] at free
        rw [isFront, gapStop_nil]
        omega
      rw [isNull]
      exact Or.inl ⟨_, if_pos rfl, _, _, _, gap, placeFirst_placed rfl (gap.roomFor arenaAt)⟩
  | cons piece rest =>
      have isPiece : piece ∈ arena.pieces := by simp [isPieces]
      have isFirst : arena.mins.headD 0#64 = piece.min := by simp [Arena.mins, isPieces]
      have nonnull := arenaAt.min_ne_zero isPiece
      have above := (arenaAt.bounds isPiece).1
      have room : (piece.min - arena.maj - sizeofMajor).toNat = piece.min.toNat - arena.low := by
        unfold Arena.low
        unfold sizeofMajor
        bv_omega
      rw [isFirst, Arena.HasGap, isPieces, hasGap_cons]
      simp only [if_neg nonnull, ge_iff_le, BitVec.le_def, room, need_toNat short]
      by_cases fits : bytes.toNat + 40 ≤ piece.min.toNat - arena.low
      · have gap : Gap arena [] (arena.maj + sizeofMajor) bytes (piece :: rest) := by
          refine ⟨isPieces, isFront, ?_, enough⟩
          rw [isFront, gapStop_cons]
          unfold Piece.start
          omega
        refine Or.inl ⟨_, if_pos fits, _, _, _, gap, ?_⟩
        exact placeFront_placed rfl (first.trans isFirst) nonnull (gap.roomFor arenaAt)
      · have few : (piece :: rest).length < 2 ^ 64 := isPieces ▸ arenaAt.length_lt
        have isSplit : arena.pieces = [] ++ piece :: rest := isPieces
        rw [if_neg fits]
        refine (mallocBetween_spec reqSize arenaAt short enough few isSplit).imp_right ?_
        rintro ⟨isNone, noGap⟩
        refine ⟨isNone, ?_⟩
        rintro (here | later)
        · unfold Piece.start at here
          omega
        · exact noGap later

end InArena

/-- The sizes as the search has them. -/
theorem bytes_toNat (short : reqSize.toNat + 72 < 2 ^ 32) :
    (reqSize + (alignment + alignInfo)).toNat = reqSize.toNat + 32 := by
  unfold alignment alignInfo
  bv_omega

/-- A minor in a gap meets the request. -/
theorem HeapAt.place (heapAt : HeapAt heap (front ++ arena :: back))
    (short : reqSize.toNat + 72 < 2 ^ 32)
    (placed : PlacedIn heap arena (reqSize + (alignment + alignInfo)) reqSize result) :
    ∃ piece changed, changed.maj = arena.maj ∧ changed.pages = arena.pages ∧
      changed.pieces ≠ [] ∧ result.2.pages = heap.pages ∧
      MinorGranted heap (front ++ arena :: back) reqSize result piece (front ++ changed :: back) := by
  obtain ⟨before, new, behind, gap, isPtr, isRest, linked⟩ := placed
  obtain ⟨ptr, after⟩ := result
  dsimp only at isPtr isRest linked
  generalize after.memory = other at isRest linked
  subst isRest
  have isBytes := bytes_toNat short
  generalize reqSize + (alignment + alignInfo) = bytes at *
  have arenaAt := heapAt.arenaAt
  have relinked := gap.relinked arenaAt linked
  have changedAt := arenaAt.insert gap linked (by omega) isBytes.ge
  have newBytes : (bytes.setWidth 32).toNat = bytes.toNat := by
    rw [BitVec.toNat_setWidth, Nat.mod_eq_of_lt (by omega)]
  have newReqSize : (reqSize.setWidth 32).toNat = reqSize.toNat := by
    rw [BitVec.toNat_setWidth, Nat.mod_eq_of_lt (by omega)]
  have isNew : (⟨new, bytes.setWidth 32, reqSize.setWidth 32⟩ : Piece) ∈
      (arena.extend before new bytes reqSize behind).pieces := by simp [Arena.extend]
  refine ⟨⟨new, bytes.setWidth 32, reqSize.setWidth 32⟩, arena.extend before new bytes reqSize behind,
    rfl, rfl, List.ne_nil_of_mem isNew, rfl, isPtr, ?_, ?_, newBytes.trans isBytes, newReqSize, ?_, rfl⟩
  · refine heapAt.replace changedAt rfl rfl ?_ ?_ ?_ rfl heapAt.bestBet rfl ?_
    · dsimp only
      rw [linked.atMajor]
    · dsimp only
      rw [linked.atMajor]
    · intro address outside
      refine relinked.beyond arenaAt (fun inNew => ?_) outside
      exact changedAt.reserved_bounds (Or.inr ⟨_, isNew, inNew⟩)
    · have more : (arena.extend before new bytes reqSize behind).inuse =
          arena.inuse + bytes.toNat := by
        simp [Arena.inuse, Arena.extend, gap.split, newBytes]
        omega
      rw [more, BitVec.ofNat_add, BitVec.ofNat_toNat, BitVec.setWidth_eq]
      dsimp only
      rw [BitVec.add_assoc, BitVec.add_comm bytes]
  · simp only [live, List.flatMap_append, List.flatMap_cons, Arena.extend, gap.split]
    refine (List.Perm.append_left _ ?_).trans List.perm_middle
    simp
  · intro address notKept
    have notReserved : ¬(arena.extend before new bytes reqSize behind).Reserved address :=
      fun reserved => notKept ⟨_, by simp, reserved⟩
    refine relinked.unchanged (fun inMajor => notReserved (Or.inl inMajor)) ?_ ?_
    · exact fun inNew => notReserved (Or.inr ⟨_, isNew, inNew⟩)
    · intro piece isPiece inMinor
      refine notReserved (Or.inr ⟨piece, ?_, inMinor.mono (by decide)⟩)
      rw [gap.split] at isPiece
      simp only [Arena.extend, List.mem_append, List.mem_cons] at isPiece ⊢
      tauto

/-! One block of the search -/

/-- The best bet does not matter to the layout. -/
theorem HeapAt.rebet {bet : U64} (heapAt : HeapAt heap arenas)
    (isBet : bet = 0#64 ∨ bet ∈ arenas.map Arena.maj) :
    HeapAt { heap with bestBet := bet } arenas :=
  ⟨heapAt.root, heapAt.chain, heapAt.each, heapAt.beside, isBet, heapAt.allocated, heapAt.inuse⟩

theorem HeapAt.unlock (heapAt : HeapAt heap arenas) : HeapAt heap.unlock arenas :=
  ⟨heapAt.root, heapAt.chain, heapAt.each, heapAt.beside, heapAt.bestBet, heapAt.allocated,
    heapAt.inuse⟩

theorem HeapAt.lock (heapAt : HeapAt heap arenas) : HeapAt { heap with locked := true } arenas :=
  ⟨heapAt.root, heapAt.chain, heapAt.each, heapAt.beside, heapAt.bestBet, heapAt.allocated,
    heapAt.inuse⟩

theorem books_unlock {warnings errors overruns : U64} (unlocked : heap.locked = false)
    (books : after.books = (true, warnings, errors, overruns)) :
    after.unlock.books = (heap.locked, warnings, errors, overruns) := by
  rw [unlocked]
  unfold Liballoc.books at *
  simp only [Prod.mk.injEq] at books ⊢
  exact ⟨rfl, books.2⟩

theorem majorFree_toNat (arenaAt : ArenaAt heap.memory arena) :
    (majorFree heap arena.maj).toNat =
      arena.stop - (arena.low + used Piece.start Piece.stop arena.pieces) := by
  have inside := arenaAt.packed.used_le
  have short := arenaAt.short
  have usage := arenaAt.usage
  have isSize : (majorAt heap.memory arena.maj).size.toNat = arena.pages.toNat * 4096 := by
    have size := congrArg BitVec.toNat ((congrArg (BitVec.setWidth 64) arenaAt.size).trans
      (pageBytes short))
    rw [BitVec.toNat_setWidth, BitVec.toNat_ofNat] at size
    omega
  unfold majorFree
  rw [Liballoc.read_majorSize, Liballoc.read_majorUsage]
  unfold Arena.stop Arena.low at *
  bv_omega

/-- The best bet after a visit. -/
theorem isBet_visit (heapAt : HeapAt heap arenas) (member : arena ∈ arenas) (bestSize : U64) :
    (if bestSize < majorFree heap arena.maj then arena.maj else heap.bestBet) = 0#64 ∨
      (if bestSize < majorFree heap arena.maj then arena.maj else heap.bestBet) ∈
        arenas.map Arena.maj := by
  split_ifs
  · exact Or.inr (List.mem_map_of_mem member)
  · exact heapAt.bestBet

/-- `CASE 1`: the search goes on from an arena with too little room. -/
theorem mallocSearch_little (reqSize : U64) (heapAt : HeapAt heap arenas) (member : arena ∈ arenas)
    (fuel : Nat) (startedBet : Bool) (bestSize : U64)
    (little : majorFree heap arena.maj < bytes + sizeofMinor) :
    ∃ (bet bestSize' : U64) (onFresh : Liballoc → U64 → Option (U64 × Liballoc)),
      (bet = 0#64 ∨ bet ∈ arenas.map Arena.maj) ∧
      (∀ heap page placed, mallocInBlock heap page bytes reqSize = some (some placed) →
        onFresh heap page = some placed) ∧
      mallocSearch bytes reqSize (fuel + 1) heap startedBet bestSize arena.maj =
        match nextBlock { heap with bestBet := bet } startedBet arena.maj bytes with
        | .visit startedBet maj =>
            mallocSearch bytes reqSize fuel { heap with bestBet := bet } startedBet bestSize' maj
        | .fresh page heap => onFresh heap page
        | .refused heap => some (0#64, heap) := by
  have isBet := isBet_visit heapAt member bestSize
  rw [mallocSearch, if_neg (heapAt.each arena member).nonnull]
  dsimp only
  rw [if_pos little]
  refine ⟨_, _, _, isBet, ?_, rfl⟩
  intro heap page placed isPlaced
  rw [isPlaced]
  rfl

section Visit

variable (reqSize) (heapAt : HeapAt heap arenas) (member : arena ∈ arenas)
  (short : bytes.toNat + 40 < 2 ^ 32) (enough : 32 ≤ bytes.toNat) (fuel : Nat)
  (startedBet : Bool) (bestSize : U64)
include heapAt member short enough

/-- The search ends at an arena with a gap. -/
theorem mallocSearch_gap (hasGap : arena.HasGap (bytes.toNat + 40)) :
    ∃ bet result, (bet = 0#64 ∨ bet ∈ arenas.map Arena.maj) ∧
      mallocSearch bytes reqSize (fuel + 1) heap startedBet bestSize arena.maj = some result ∧
      PlacedIn { heap with bestBet := bet } arena bytes reqSize result := by
  have arenaAt := heapAt.each arena member
  have free : arena.low + used Piece.start Piece.stop arena.pieces + (bytes.toNat + 40) ≤
      arena.stop := by
    by_contra full
    exact arenaAt.packed.not_hasGap (Nat.lt_of_not_le full) hasGap
  have isFree := majorFree_toNat arenaAt
  have notFull : ¬majorFree heap arena.maj < bytes + sizeofMinor := by
    rw [BitVec.lt_def, isFree, need_toNat short]
    omega
  have isBet := isBet_visit heapAt member bestSize
  rw [mallocSearch, if_neg arenaAt.nonnull]
  dsimp only
  rw [if_neg notFull]
  generalize (if bestSize < majorFree heap arena.maj then arena.maj else heap.bestBet) = bet at *
  have inBlock : ∃ result, mallocInBlock { heap with bestBet := bet } arena.maj bytes reqSize =
      some (some result) ∧ PlacedIn { heap with bestBet := bet } arena bytes reqSize result := by
    refine Or.resolve_right (mallocInBlock_spec reqSize ?_ short enough free) fun none => none.2 hasGap
    exact arenaAt
  obtain ⟨result, isResult, placed⟩ := inBlock
  refine ⟨bet, result, isBet, ?_, placed⟩
  rw [isResult]
  rfl

/-- The search goes on from an arena without a gap. -/
theorem mallocSearch_full (full : ¬arena.HasGap (bytes.toNat + 40)) :
    ∃ bet bestSize' onFresh, (bet = 0#64 ∨ bet ∈ arenas.map Arena.maj) ∧
      (onFresh = (fun heap page =>
          mallocSearch bytes reqSize fuel heap startedBet bestSize' page) ∨
        ∀ heap page placed, mallocInBlock heap page bytes reqSize = some (some placed) →
          onFresh heap page = some placed) ∧
      mallocSearch bytes reqSize (fuel + 1) heap startedBet bestSize arena.maj =
        match nextBlock { heap with bestBet := bet } startedBet arena.maj bytes with
        | .visit startedBet maj =>
            mallocSearch bytes reqSize fuel { heap with bestBet := bet } startedBet bestSize' maj
        | .fresh page heap => onFresh heap page
        | .refused heap => some (0#64, heap) := by
  have arenaAt := heapAt.each arena member
  have isFree := majorFree_toNat arenaAt
  by_cases little : majorFree heap arena.maj < bytes + sizeofMinor
  · obtain ⟨bet, bestSize', onFresh, isBet, isFresh, isSearch⟩ :=
      mallocSearch_little reqSize heapAt member fuel startedBet bestSize little
    exact ⟨bet, bestSize', onFresh, isBet, Or.inr isFresh, isSearch⟩
  · have free : arena.low + used Piece.start Piece.stop arena.pieces + (bytes.toNat + 40) ≤
        arena.stop := by
      rw [BitVec.lt_def, isFree, need_toNat short] at little
      have inside := arenaAt.packed.used_le
      omega
    rw [mallocSearch, if_neg arenaAt.nonnull]
    dsimp only
    have isBet := isBet_visit heapAt member bestSize
    generalize (if bestSize < majorFree heap arena.maj then arena.maj else heap.bestBet) = bet at *
    generalize (if bestSize < majorFree heap arena.maj then majorFree heap arena.maj
      else bestSize) = bestSize'
    have isNone : mallocInBlock { heap with bestBet := bet } arena.maj bytes reqSize =
        some none := by
      refine (Or.resolve_left (mallocInBlock_spec reqSize ?_ short enough free) ?_).1
      · exact arenaAt
      · rintro ⟨result, -, before, new, behind, gap, -⟩
        exact full gap.hasGap
    rw [if_neg little, isNone]
    exact ⟨bet, bestSize', _, isBet, Or.inl rfl, rfl⟩

end Visit

/-! From block to block -/

theorem PageFor.separate {count : U32} (pageFor : PageFor arenas page count)
    (enough : 16 ≤ count.toNat) (arenaAt : ArenaAt memory arena) (member : arena ∈ arenas) :
    Separate page 40 arena.maj 40 := by
  have noWrap := pageFor.noWrap
  intro address inPage inMajor
  rw [inRange_iff_toNat (by omega)] at inPage
  refine (pageFor.beside arena member).symm.not_holds
    (arenaAt.reserved_bounds (Or.inl inMajor)) ?_
  unfold Arena.Holds Arena.stop
  dsimp only
  omega

section NextBlock

variable {next : Arena} {startedBet : Bool}

theorem nextBlock_visit (heapAt : HeapAt heap (front ++ arena :: next :: back)) :
    nextBlock heap startedBet arena.maj bytes = .visit startedBet next.maj := by
  have chain := heapAt.chain
  rw [List.map_append, List.map_cons] at chain
  have isNext : heap.read majorNext arena.maj = next.maj := chain.links.2
  have nonnull : next.maj ≠ 0#64 := (heapAt.each next (by simp)).nonnull
  unfold nextBlock
  dsimp only
  rw [isNext, if_pos nonnull]

theorem HeapAt.last_next (heapAt : HeapAt heap (front ++ [arena])) :
    heap.read majorNext arena.maj = 0#64 := by
  have chain := heapAt.chain
  rw [List.map_append, List.map_cons] at chain
  exact chain.links.2

theorem nextBlock_restart (heapAt : HeapAt heap (front ++ [arena])) :
    nextBlock heap true arena.maj bytes = .visit false heap.memRoot := by
  unfold nextBlock
  dsimp only
  rw [heapAt.last_next]
  rfl

theorem nextBlock_refused (heapAt : HeapAt heap (front ++ [arena]))
    (refused : heap.supply.headD 0#64 = 0#64) :
    nextBlock heap false arena.maj bytes = .refused
      { heap with
        supply := heap.supply.tail
        pageCalls := heap.pageCalls ++ [.alloc (newPageCount (bytes.setWidth 32)) 0#64]
        warningCount := heap.warningCount + 1#64 } := by
  have same : majorNext.write heap.memory arena.maj 0#64 = heap.memory := by
    have isNext := heapAt.last_next
    rw [← isNext]
    exact majorNext.write_read heap.memory arena.maj
  unfold nextBlock
  dsimp only
  rw [heapAt.last_next, allocateNewPage_null refused]
  simp only [Liballoc.write, same]
  rfl

/-- The block behind the last one is new. -/
theorem nextBlock_fresh {count : U32} (isCount : newPageCount (bytes.setWidth 32) = count)
    (heapAt : HeapAt heap (front ++ [arena])) (given : heap.supply.headD 0#64 = page)
    (pageFor : PageFor (front ++ [arena]) page count) (enough : 16 ≤ count.toNat) :
    ∃ after, nextBlock heap false arena.maj bytes = .fresh page after ∧
      Enlarged heap after (front ++ [arena]) page count ∧ after.books = heap.books ∧
      after.pages = (heap.supply.tail, heap.pageCalls ++ [.alloc count page]) := by
  have apart := pageFor.separate enough heapAt.arenaAt (by simp)
  have apart' := apart.symm
  have isLast : leftMaj (front ++ [arena]) = arena.maj := by simp [leftMaj]
  obtain ⟨isPage, rest, atPage, outside⟩ := allocateNewPage_page isCount given pageFor.nonnull
  unfold nextBlock
  dsimp only
  rw [heapAt.last_next, isPage]
  generalize (allocateNewPage heap (bytes.setWidth 32)).2 = paged at *
  generalize paged.memory = other at *
  subst rest
  refine ⟨_, if_neg pageFor.nonnull, ⟨?_, ?_, ?_, ?_, rfl, rfl, rfl⟩, rfl, rfl⟩
  · dsimp only [Liballoc.write_memory]
    rw [majorAt_writePrev, majorAt_write_separate apart, atPage, isLast]
  · intro _
    have sameLast : majorAt other arena.maj = majorAt heap.memory arena.maj :=
      majorAt_congr fun address inside => outside address (apart' address inside)
    dsimp only [Liballoc.write_memory]
    rw [isLast, majorAt_write_separate apart', majorAt_writeNext, sameLast]
  · intro address offPage offLast
    have offArena : ¬InRange arena.maj 40 address := isLast ▸ offLast (isLast ▸ heapAt.arenaAt.nonnull)
    dsimp only [Liballoc.write_memory]
    rw [Field.write_outside (by decide) offPage, Field.write_outside (by decide) offArena,
      outside address offPage]
  · have root := heapAt.root
    rw [List.map_append] at root ⊢
    dsimp only [Liballoc.write_memRoot]
    rw [root]
    cases front <;> rfl

end NextBlock

end Nekonix
