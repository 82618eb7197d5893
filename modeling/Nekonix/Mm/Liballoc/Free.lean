import Nekonix.Mm.Liballoc.Search

/-!
# What `kfree` takes back

The minor of the pointer leaves its arena, and the arena the list if that was its last minor: the
pages go back with the count that they came with.
-/

namespace Nekonix

open FlatMemory Packing

variable {heap after : Liballoc} {memory : Memory} {address : U64} {piece : Piece} {arena : Arena}
  {arenas further front back : List Arena} {before behind : List Piece}

/-- The pages that go back with a minor: none, or those of one arena. -/
inductive Returned (heap after : Liballoc) (arenas further : List Arena) : Prop
  | none (spans : spans further = spans arenas) (pages : after.pages = heap.pages)
  | arena {maj : U64} {count : U32} (spans : (spans arenas).Perm ((maj, count) :: spans further))
      (pages : after.pages = (heap.supply, heap.pageCalls ++ [.free maj count]))

/-- A minor is not in use any more. -/
structure Released (heap : Liballoc) (arenas : List Arena) (piece : Piece) (after : Liballoc)
    (further : List Arena) : Prop where
  heapAt : HeapAt after further
  live : (live arenas).Perm (piece :: live further)
  kept : ∀ address, ¬Kept arenas address → after.memory address = heap.memory address
  books : after.books = heap.books
  occupied : Occupied arenas → Occupied further
  returned : Returned heap after arenas further

namespace ArenaAt

theorem ptr_toNat (arenaAt : ArenaAt memory arena) (member : piece ∈ arena.pieces) :
    piece.ptr.toNat = piece.min.toNat + 40 + (alignDiff piece.min).toNat := by
  obtain ⟨-, high, -⟩ := alignDiff_toNat piece.min
  have noWrap := arenaAt.noWrap
  have size := arenaAt.size_ge member
  obtain ⟨-, below⟩ := arenaAt.bounds member
  unfold Piece.ptr userPtr sizeofMinor
  bv_omega

theorem ptr_ne_zero (arenaAt : ArenaAt memory arena) (member : piece ∈ arena.pieces) :
    piece.ptr ≠ 0#64 := by
  have isPtr := arenaAt.ptr_toNat member
  intro isNull
  rw [isNull] at isPtr
  have isZero : (0#64 : U64).toNat = 0 := rfl
  omega

/-- The pointer leads back to the minor. -/
theorem header (arenaAt : ArenaAt memory arena) (member : piece ∈ arena.pieces) :
    unalignPtr memory piece.ptr - sizeofMinor = piece.min := by
  have stored := (arenaAt.pieces piece member).diff
  unfold Piece.ptr
  rw [unalignPtr_userPtr stored]
  exact BitVec.add_sub_cancel _ _

end ArenaAt

theorem reconsiderBet_eq (heap : Liballoc) (maj : U64) :
    ∃ bet, (bet = heap.bestBet ∨ bet = maj) ∧ reconsiderBet heap maj = { heap with bestBet := bet } := by
  unfold reconsiderBet
  dsimp only
  split_ifs
  · exact ⟨_, Or.inr rfl, rfl⟩
  · exact ⟨_, Or.inl rfl, rfl⟩
  · exact ⟨_, Or.inl rfl, rfl⟩

section Detached

variable (heapAt : HeapAt heap (front ++ arena :: back))
  (split : arena.pieces = before ++ piece :: behind)
include heapAt split

theorem HeapAt.linkedOut :
    arena.LinkedOut heap.memory (detachMinor heap arena.maj piece.min).memory before piece behind :=
  detachMinor_linkedOut (heapAt.arenaAt.links split).1 (heapAt.arenaAt.links split).2
    (heapAt.arenaAt.apartFrom split)

theorem HeapAt.detach :
    HeapAt (detachMinor heap arena.maj piece.min) (front ++ arena.keep before behind :: back) := by
  have arenaAt := heapAt.arenaAt
  have linked := heapAt.linkedOut split
  have relinked := arenaAt.relinked split linked
  have isPiece : piece ∈ arena.pieces := by simp [split]
  have rest := detachMinor_rest heap arena.maj piece.min
  have less : arena.inuse = (arena.keep before behind).inuse + piece.size.toNat := by
    simp [Arena.inuse, Arena.keep, split]
    omega
  refine heapAt.replace (arenaAt.remove split linked) rfl rfl ?_ ?_ ?_ ?_ ?_ ?_ ?_
  · rw [linked.atMajor]
  · rw [linked.atMajor]
  · intro address outside
    refine relinked.beyond arenaAt (fun inMinor => ?_) outside
    exact arenaAt.reserved_bounds (Or.inr ⟨piece, isPiece, inMinor.mono (by decide)⟩)
  · rw [rest]
  · rw [rest]
    exact heapAt.bestBet
  · rw [rest]
  · rw [rest, less, BitVec.ofNat_add]
    dsimp only
    rw [Liballoc.read_minorSize, (arenaAt.pieces piece isPiece).size]
    generalize BitVec.ofNat 64 (arena.keep before behind).inuse = fewer
    bv_omega

theorem HeapAt.detach_kept (notReserved : ¬arena.Reserved address) :
    (detachMinor heap arena.maj piece.min).memory address = heap.memory address := by
  have isPiece : piece ∈ arena.pieces := by simp [split]
  refine (heapAt.arenaAt.relinked split (heapAt.linkedOut split)).unchanged ?_ ?_ ?_
  · exact fun inMajor => notReserved (Or.inl inMajor)
  · exact fun inMinor => notReserved (Or.inr ⟨piece, isPiece, inMinor.mono (by decide)⟩)
  · exact fun later isLater inMinor =>
      notReserved (Or.inr ⟨later, isLater, inMinor.mono (by decide)⟩)

theorem freeMinor_released :
    ∃ further, Released heap (front ++ arena :: back) piece (freeMinor heap piece.min) further := by
  have arenaAt := heapAt.arenaAt
  have isPiece : piece ∈ arena.pieces := by simp [split]
  have detachedAt := heapAt.detach split
  have kept : ∀ address, ¬arena.Reserved address →
      (detachMinor heap arena.maj piece.min).memory address = heap.memory address :=
    fun _ => heapAt.detach_kept split
  have isFirst := detachedAt.arenaAt.first
  have isBlock : heap.read minorBlock piece.min = arena.maj := (arenaAt.pieces piece isPiece).block
  have rest := detachMinor_rest heap arena.maj piece.min
  have books : (detachMinor heap arena.maj piece.min).books = heap.books := by rw [rest]; rfl
  have pages : (detachMinor heap arena.maj piece.min).pages = heap.pages := by rw [rest]; rfl
  have isLive : (live (front ++ arena :: back)).Perm
      (piece :: live (front ++ arena.keep before behind :: back)) := by
    simp only [live, List.flatMap_append, List.flatMap_cons, Arena.keep, split]
    refine (List.Perm.append_left _ ?_).trans List.perm_middle
    simp
  unfold freeMinor
  dsimp only
  rw [isBlock, Liballoc.read_majorFirst]
  generalize detachMinor heap arena.maj piece.min = detached at *
  have isHead : (majorAt detached.memory arena.maj).first =
      ((before ++ behind).map Piece.min).headD 0#64 := isFirst
  rw [isHead]
  cases isKept : before ++ behind with
  | nil =>
      have empty : (arena.keep before behind).pieces = [] := isKept
      obtain ⟨-, isRelease⟩ := detachedAt.cutOut
      refine ⟨front ++ back, ?_⟩
      rw [List.map_nil, List.headD_nil, if_pos rfl]
      refine ⟨detachedAt.shrink empty, ?_, ?_, ?_, ?_, ?_⟩
      · refine isLive.trans (List.Perm.of_eq ?_)
        simp [live, empty]
      · intro address notKept
        have offMajors : ∀ further ∈ front ++ back, ¬InRange further.maj 40 address := by
          intro further member inMajor
          refine notKept ⟨further, ?_, Or.inl inMajor⟩
          simp only [List.mem_append, List.mem_cons] at member ⊢
          tauto
        exact (detachedAt.shrink_memory offMajors).trans
          (kept address fun reserved => notKept ⟨arena, by simp, reserved⟩)
      · exact (congrArg Liballoc.books isRelease).trans books
      · intro occupied further member
        refine occupied further ?_
        simp only [List.mem_append, List.mem_cons] at member ⊢
        tauto
      · have spansPerm : (spans (front ++ arena :: back)).Perm
            ((arena.maj, arena.pages) :: spans (front ++ back)) := by
          simp only [spans, List.map_append, List.map_cons]
          exact List.perm_middle
        refine .arena spansPerm ((congrArg Liballoc.pages isRelease).trans ?_)
        obtain ⟨supply, calls⟩ := Prod.mk.inj pages
        exact congrArg₂ (fun supply calls => (supply, calls ++ [.free arena.maj arena.pages])) supply
          calls
  | cons first later =>
      have isMember : first ∈ arena.pieces := ArenaAt.cut_mem split (by simp [isKept])
      have nonnull : (((first :: later).map Piece.min).headD 0#64) ≠ 0#64 :=
        arenaAt.min_ne_zero isMember
      obtain ⟨bet, isBet, isAfter⟩ := reconsiderBet_eq detached arena.maj
      rw [if_neg nonnull, isAfter]
      refine ⟨front ++ arena.keep before behind :: back, detachedAt.rebet ?_, isLive, ?_, books, ?_,
        ?_⟩
      · rcases isBet with isOld | isMaj
        · exact isOld ▸ detachedAt.bestBet
        · exact Or.inr (isMaj ▸ by simp [Arena.keep])
      · exact fun address notKept =>
          kept address fun reserved => notKept ⟨arena, by simp, reserved⟩
      · refine fun occupied => occupied.replace ?_
        rw [Arena.keep, isKept]
        exact List.cons_ne_nil _ _
      · refine .none ?_ pages
        simp [spans, Arena.keep]

end Detached

theorem mem_live (member : piece ∈ live arenas) : ∃ front arena back before behind,
    arenas = front ++ arena :: back ∧ arena.pieces = before ++ piece :: behind := by
  obtain ⟨arena, isArena, isPiece⟩ := List.mem_flatMap.mp member
  obtain ⟨front, back, isArenas⟩ := List.append_of_mem isArena
  obtain ⟨before, behind, isPieces⟩ := List.append_of_mem isPiece
  exact ⟨front, arena, back, before, behind, isArenas, isPieces⟩

theorem Released.unlock (unlocked : heap.locked = false)
    (released : Released { heap with locked := true } arenas piece after further) :
    Released heap arenas piece after.unlock further where
  heapAt := released.heapAt.unlock
  live := released.live
  kept := released.kept
  books := books_unlock unlocked released.books
  occupied := released.occupied
  returned := by
    cases released.returned with
    | none spans pages => exact .none spans pages
    | arena spans pages => exact .arena spans pages

/-- A minor in use is taken back. -/
theorem kfree_spec (unlocked : heap.locked = false) (heapAt : HeapAt heap arenas)
    (member : piece ∈ live arenas) :
    ∃ after further, kfree heap piece.ptr = some after ∧
      Released heap arenas piece after further := by
  obtain ⟨front, arena, back, before, behind, rfl, split⟩ := mem_live member
  have isPiece : piece ∈ arena.pieces := by simp [split]
  have arenaAt := heapAt.arenaAt
  obtain ⟨further, released⟩ := freeMinor_released heapAt.lock split
  refine ⟨_, further, ?_, released.unlock unlocked⟩
  unfold kfree Liballoc.lock
  rw [if_neg (arenaAt.ptr_ne_zero isPiece), unlocked]
  have isMagic : heap.read minorMagic piece.min = liballocMagic := (arenaAt.pieces piece isPiece).magic
  have isHeader := arenaAt.header isPiece
  simp only [Bool.false_eq_true, if_false, Option.map_some, isHeader]
  refine congrArg some (congrArg Liballoc.unlock ?_)
  exact if_neg fun different => different isMagic

end Nekonix
