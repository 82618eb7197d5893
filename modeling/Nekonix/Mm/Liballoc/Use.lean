import Nekonix.Library.BlockStore
import Nekonix.Mm.Liballoc.Realloc

/-!
# A heap in use

The calls of a heap by callers that know which blocks they hold.  They free and resize only what
they hold and write only to what they asked for; the pages that the heap is given are new.  To
the callers such a heap is a store of blocks.
-/

namespace Nekonix

open FlatMemory BlockStore

/-! The bytes of a range -/

theorem bytesAt_take (memory : Memory) (base : U64) {size bytes : Nat} (shorter : size ≤ bytes) :
    (bytesAt memory base bytes).take size = bytesAt memory base size := by
  apply List.ext_getElem?
  intro offset
  rw [List.getElem?_take, bytesAt_getElem?, bytesAt_getElem?]
  split_ifs with below inside
  · rfl
  · omega
  · rfl

theorem bytesAt_prefix {memory other : Memory} {base start : U64} {size bytes : Nat}
    (longer : size ≤ bytes) (agree : ∀ offset < size,
      other (start + BitVec.ofNat 64 offset) = memory (base + BitVec.ofNat 64 offset)) :
    ∃ more : List U8, bytesAt other start bytes = bytesAt memory base size ++ more ∧
      size + more.length = bytes := by
  refine ⟨(bytesAt other start bytes).drop size, ?_, ?_⟩
  · have front : (bytesAt other start bytes).take size = bytesAt memory base size := by
      rw [bytesAt_take other start longer]
      exact List.map_congr_left fun offset member => agree offset (List.mem_range.mp member)
    rw [← front, List.take_append_drop]
  · rw [List.length_drop, length_bytesAt]
    omega

theorem bytesAt_update (memory : Memory) (base : U64) {offset bytes : Nat} (byte : U8)
    (inside : offset < bytes) (short : bytes ≤ 2 ^ 64) :
    bytesAt (Function.update memory (base + BitVec.ofNat 64 offset) byte) base bytes =
      (bytesAt memory base bytes).set offset byte := by
  apply List.ext_getElem?
  intro other
  rw [List.getElem?_set, bytesAt_getElem?, bytesAt_getElem?, length_bytesAt]
  by_cases here : offset = other
  · subst here
    rw [if_pos inside, if_pos rfl, if_pos inside, Function.update_self]
  · rw [if_neg here]
    split_ifs with below
    · have apart : base + BitVec.ofNat 64 other ≠ base + BitVec.ofNat 64 offset := by
        intro same
        have positions := congrArg BitVec.toNat ((BitVec.add_right_inj base).mp same)
        rw [BitVec.toNat_ofNat, BitVec.toNat_ofNat, Nat.mod_eq_of_lt (by omega),
          Nat.mod_eq_of_lt (by omega)] at positions
        exact here positions.symm
      rw [Function.update_of_ne apart]
    · rfl

/-- A heap, and how many bytes the callers asked for with each block that they hold. -/
structure Use where
  heap : Liballoc
  blocks : U64 → Option Nat

namespace Use

def boot (memory : Memory) (supply : List U64) : Use := ⟨.boot memory supply, fun _ => none⟩

/-- The contents of the blocks. -/
def store (use : Use) : Store U64 U8 :=
  fun ptr => (use.blocks ptr).map (bytesAt use.heap.memory ptr)

/-- What the callers hold after an allocation. -/
def take (use : Use) (heap : Liballoc) (ptr : U64) (bytes : Nat) : Use where
  heap := heap
  blocks := if ptr = 0#64 then use.blocks else Function.update use.blocks ptr (some bytes)

/-- What the callers hold after a release. -/
def drop (use : Use) (heap : Liballoc) (ptr : U64) : Use where
  heap := heap
  blocks := Function.update use.blocks ptr none

end Use

/-- The calls, as callers may make them.  A refused `kcalloc` or `krealloc` is not among them. -/
inductive UseStep : Use → Action U64 U8 → Use → Prop where
  | malloc {use : Use} {size ptr : U64} {heap : Liballoc}
      (asked : size.toNat + 112 + 4095 < 2 ^ 32) (fresh : FreshPages use.heap size)
      (call : kmalloc use.heap size = some (ptr, heap)) :
      UseStep use (.alloc size.toNat ptr) (use.take heap ptr size.toNat)
  | calloc {use : Use} {nobj size ptr : U64} {heap : Liballoc}
      (asked : nobj.toNat * size.toNat + 112 + 4095 < 2 ^ 31)
      (fresh : FreshPages use.heap (nobj * size))
      (call : kcalloc use.heap nobj size = some (ptr, heap)) (given : ptr ≠ 0#64) :
      UseStep use (.zeroed (nobj.toNat * size.toNat) ptr)
        (use.take heap ptr (nobj.toNat * size.toNat))
  | realloc {use : Use} {ptr size result : U64} {heap : Liballoc} {bytes : Nat}
      (held : use.blocks ptr = some bytes) (positive : size ≠ 0#64)
      (asked : size.toNat + 112 + 4095 < 2 ^ 32) (fresh : FreshPages use.heap size)
      (call : krealloc use.heap ptr size = some (result, heap)) (given : result ≠ 0#64) :
      UseStep use (.resize ptr size.toNat result) ((use.drop heap ptr).take heap result size.toNat)
  | reallocNull {use : Use} {size ptr : U64} {heap : Liballoc} (positive : size ≠ 0#64)
      (asked : size.toNat + 112 + 4095 < 2 ^ 32) (fresh : FreshPages use.heap size)
      (call : krealloc use.heap 0#64 size = some (ptr, heap)) :
      UseStep use (.alloc size.toNat ptr) (use.take heap ptr size.toNat)
  | reallocZero {use : Use} {ptr result : U64} {heap : Liballoc} {bytes : Nat}
      (held : use.blocks ptr = some bytes)
      (call : krealloc use.heap ptr 0#64 = some (result, heap)) :
      UseStep use (.free ptr) (use.drop heap ptr)
  | free {use : Use} {ptr : U64} {heap : Liballoc} {bytes : Nat}
      (held : use.blocks ptr = some bytes) (call : kfree use.heap ptr = some heap) :
      UseStep use (.free ptr) (use.drop heap ptr)
  | write {use : Use} {ptr : U64} {bytes offset : Nat} {byte : U8}
      (held : use.blocks ptr = some bytes) (inside : offset < bytes) :
      UseStep use (.write ptr offset byte)
        { use with
          heap.memory := Function.update use.heap.memory (ptr + BitVec.ofNat 64 offset) byte }

/-- What the callers hold are the minors in use of a heap that is laid out. -/
structure UseAt (use : Use) (arenas : List Arena) : Prop where
  heapAt : HeapAt use.heap arenas
  unlocked : use.heap.locked = false
  accounted : Accounted use.heap arenas
  occupied : Occupied arenas
  each : ∀ piece ∈ live arenas, use.blocks piece.ptr = some piece.reqSize.toNat
  only : ∀ ptr, use.blocks ptr ≠ none → ∃ piece ∈ live arenas, piece.ptr = ptr

variable {use next : Use} {heap after : Liballoc} {arenas further : List Arena}
  {piece moved : Piece} {ptr other size result : U64} {bytes : Nat} {action : Action U64 U8}
  {actions : List (Action U64 U8)}

@[simp]
theorem Use.drop_blocks : (use.drop after ptr).blocks = Function.update use.blocks ptr none := rfl

theorem Use.take_blocks (nonnull : ptr ≠ 0#64) :
    (use.take after ptr bytes).blocks = Function.update use.blocks ptr (some bytes) :=
  if_neg nonnull

theorem useAt_boot (memory : Memory) (supply : List U64) : UseAt (.boot memory supply) [] where
  heapAt := ⟨rfl, trivial, by simp, List.Pairwise.nil, Or.inl rfl, rfl, rfl⟩
  unlocked := rfl
  accounted := by
    refine ⟨List.Perm.refl _, ?_⟩
    intro earlier call later isCalls
    exact absurd isCalls (by simp [Use.boot, Liballoc.boot])
  occupied := by simp [Occupied]
  each := by simp [live]
  only ptr isBlock := absurd rfl isBlock

theorem ptr_nonnull (heapAt : HeapAt heap arenas) (member : piece ∈ live arenas) :
    piece.ptr ≠ 0#64 := by
  obtain ⟨arena, isArena, isPiece⟩ := List.mem_flatMap.mp member
  exact (heapAt.each arena isArena).ptr_ne_zero isPiece

namespace UseAt

theorem block (useAt : UseAt use arenas) (held : use.blocks ptr = some bytes) :
    ∃ piece ∈ live arenas, piece.ptr = ptr ∧ piece.reqSize.toNat = bytes := by
  obtain ⟨piece, isPiece, rfl⟩ := useAt.only ptr (by simp [held])
  exact ⟨piece, isPiece, rfl, Option.some.inj ((useAt.each piece isPiece).symm.trans held)⟩

/-- A pointer that is out for no block is new to the callers. -/
theorem fresh_store (useAt : UseAt use arenas) (nonnull : ptr ≠ 0#64)
    (fresh : ∀ other ∈ live arenas, other.ptr ≠ ptr) : Fresh 0#64 use.store ptr := by
  have isNone : use.blocks ptr = none := by
    by_contra isBlock
    obtain ⟨piece, isPiece, isPtr⟩ := useAt.only ptr isBlock
    exact fresh piece isPiece isPtr
  refine ⟨nonnull, ?_⟩
  rw [Use.store, isNone]
  rfl

theorem store_ptr (useAt : UseAt use arenas) (member : piece ∈ live arenas) :
    use.store piece.ptr = some (bytesAt use.heap.memory piece.ptr piece.reqSize.toNat) := by
  rw [Use.store, useAt.each piece member]
  rfl

/-- A block whose bytes do not change keeps its contents. -/
theorem store_other (useAt : UseAt use arenas) (sameBlock : next.blocks ptr = use.blocks ptr)
    (agree : ∀ piece ∈ live arenas, piece.ptr = ptr → ∀ address, piece.Owns address →
      next.heap.memory address = use.heap.memory address) : next.store ptr = use.store ptr := by
  unfold Use.store
  rw [sameBlock]
  cases isBlock : use.blocks ptr with
  | none => rfl
  | some bytes =>
      obtain ⟨piece, isPiece, rfl, rfl⟩ := useAt.block isBlock
      have bound := piece.reqSize.isLt
      refine congrArg some (bytesAt_congr fun offset below => agree piece isPiece rfl _ ?_)
      exact inRange_offset _ (by omega) below

/-- A new block. -/
theorem allocated (useAt : UseAt use arenas)
    (allocated : Allocated use.heap arenas bytes (ptr, after) piece further) :
    Fresh 0#64 use.store ptr ∧ UseAt (use.take after ptr bytes) further ∧
      (use.take after ptr bytes).store =
        put use.store ptr (some (bytesAt after.memory ptr bytes)) := by
  have isPtr : ptr = piece.ptr := allocated.ptr
  have isSize : piece.reqSize.toNat = bytes := allocated.reqSize
  subst isPtr isSize
  have furtherAt : HeapAt after further := allocated.heapAt
  have isPiece : piece ∈ live further := allocated.live.mem_iff.mpr List.mem_cons_self
  have distinct := allocated.live.nodup_iff.mp furtherAt.live_nodup
  have fresh : ∀ other ∈ live arenas, other.ptr ≠ piece.ptr := by
    intro other isOther same
    have inFurther : other ∈ live further :=
      allocated.live.mem_iff.mpr (List.mem_cons_of_mem _ isOther)
    have isSame := furtherAt.ptr_inj inFurther isPiece same
    exact (List.nodup_cons.mp distinct).1 (isSame ▸ isOther)
  have nonnull := ptr_nonnull furtherAt isPiece
  refine ⟨useAt.fresh_store nonnull fresh, ⟨furtherAt, allocated.unlocked, allocated.accounted,
    allocated.occupied useAt.occupied, ?_, ?_⟩, ?_⟩
  · intro later isLater
    rw [Use.take_blocks nonnull]
    rcases List.mem_cons.mp (allocated.live.mem_iff.mp isLater) with rfl | isOld
    · rw [Function.update_self]
    · rw [Function.update_of_ne (fresh later isOld), useAt.each later isOld]
  · intro ptr isBlock
    rw [Use.take_blocks nonnull] at isBlock
    by_cases here : ptr = piece.ptr
    · exact ⟨piece, isPiece, here.symm⟩
    · rw [Function.update_of_ne here] at isBlock
      obtain ⟨later, isLater, samePtr⟩ := useAt.only ptr isBlock
      exact ⟨later, allocated.live.mem_iff.mpr (List.mem_cons_of_mem _ isLater), samePtr⟩
  · funext other
    by_cases here : other = piece.ptr
    · rw [here, put_same, Use.store, Use.take_blocks nonnull, Function.update_self]
      rfl
    · rw [put_other here]
      refine useAt.store_other ?_ fun later isLater _ => allocated.others later isLater
      rw [Use.take_blocks nonnull, Function.update_of_ne here]

/-- A block that is taken back. -/
theorem released (useAt : UseAt use arenas) (member : piece ∈ live arenas)
    (released : Released use.heap arenas piece after further) :
    UseAt (use.drop after piece.ptr) further ∧
      (use.drop after piece.ptr).store = put use.store piece.ptr none := by
  have heapAt := useAt.heapAt
  have distinct := released.live.nodup_iff.mp heapAt.live_nodup
  have old : ∀ later ∈ live further, later ∈ live arenas ∧ later.ptr ≠ piece.ptr := by
    intro later isLater
    have isOld := released.live.mem_iff.mpr (List.mem_cons_of_mem _ isLater)
    refine ⟨isOld, fun same => (List.nodup_cons.mp distinct).1 ?_⟩
    exact heapAt.ptr_inj isOld member same ▸ isLater
  have unlocked : after.locked = false := (congrArg Prod.fst released.books).trans useAt.unlocked
  refine ⟨⟨released.heapAt, unlocked, useAt.accounted.returned released.returned,
    released.occupied useAt.occupied, ?_, ?_⟩, ?_⟩
  · intro later isLater
    obtain ⟨isOld, different⟩ := old later isLater
    rw [Use.drop_blocks, Function.update_of_ne different, useAt.each later isOld]
  · intro ptr isBlock
    rw [Use.drop_blocks] at isBlock
    have here : ptr ≠ piece.ptr := by
      rintro rfl
      exact isBlock (Function.update_self ..)
    rw [Function.update_of_ne here] at isBlock
    obtain ⟨later, isLater, samePtr⟩ := useAt.only ptr isBlock
    rcases List.mem_cons.mp (released.live.mem_iff.mp isLater) with rfl | stays
    · exact absurd samePtr.symm here
    · exact ⟨later, stays, samePtr⟩
  · funext other
    by_cases here : other = piece.ptr
    · rw [here, put_same, Use.store, Use.drop_blocks, Function.update_self]
      rfl
    · rw [put_other here]
      refine useAt.store_other (by rw [Use.drop_blocks, Function.update_of_ne here]) ?_
      exact fun later isLater _ address owns =>
        released.kept address (heapAt.owns_not_kept isLater owns)

/-- A block that moves. -/
theorem move (useAt : UseAt use arenas) (member : piece ∈ live arenas)
    (isMoved : Moved use.heap arenas piece size (result, after) moved further)
    (larger : piece.reqSize.toNat < size.toNat) :
    UseAt ((use.drop after piece.ptr).take after result size.toNat) further ∧
      Fresh 0#64 use.store result ∧
      ∃ more : List U8, piece.reqSize.toNat + more.length = size.toNat ∧
        ((use.drop after piece.ptr).take after result size.toNat).store =
          put (put use.store piece.ptr none) result
            (some (bytesAt use.heap.memory piece.ptr piece.reqSize.toNat ++ more)) := by
  have heapAt := useAt.heapAt
  have isPtr : result = moved.ptr := isMoved.ptr
  subst isPtr
  have furtherAt : HeapAt after further := isMoved.heapAt
  have notOld : moved ∉ live arenas := fun isOld => isMoved.fresh moved isOld rfl
  have whole : (piece :: live further).Nodup :=
    isMoved.live.nodup_iff.mp (List.nodup_cons.mpr ⟨notOld, heapAt.live_nodup⟩)
  have old : ∀ later ∈ live further, later ≠ moved →
      later ∈ live arenas ∧ later.ptr ≠ piece.ptr := by
    intro later isLater different
    have isOld := (List.mem_cons.mp
      (isMoved.live.mem_iff.mpr (List.mem_cons_of_mem _ isLater))).resolve_left different
    refine ⟨isOld, fun same => (List.nodup_cons.mp whole).1 ?_⟩
    exact heapAt.ptr_inj isOld member same ▸ isLater
  have stays : ∀ later ∈ moved :: live arenas, later ≠ piece → later ∈ live further :=
    fun later isLater different =>
      (List.mem_cons.mp (isMoved.live.mem_iff.mp isLater)).resolve_left different
  have isNew : moved ∈ live further :=
    stays moved List.mem_cons_self fun same => notOld (same ▸ member)
  have nonnull := ptr_nonnull furtherAt isNew
  obtain ⟨more, isContents, isLength⟩ := bytesAt_prefix larger.le isMoved.contents
  refine ⟨⟨furtherAt, isMoved.unlocked, isMoved.accounted useAt.accounted,
    isMoved.occupied useAt.occupied, ?_, ?_⟩,
    useAt.fresh_store nonnull isMoved.fresh, more, isLength, ?_⟩
  · intro later isLater
    rw [Use.take_blocks nonnull, Use.drop_blocks]
    by_cases here : later = moved
    · rw [here, Function.update_self, isMoved.reqSize]
    · obtain ⟨isOld, different⟩ := old later isLater here
      rw [Function.update_of_ne (isMoved.fresh later isOld), Function.update_of_ne different,
        useAt.each later isOld]
  · intro ptr isBlock
    rw [Use.take_blocks nonnull, Use.drop_blocks] at isBlock
    by_cases here : ptr = moved.ptr
    · exact ⟨moved, isNew, here.symm⟩
    · rw [Function.update_of_ne here] at isBlock
      have different : ptr ≠ piece.ptr := by
        rintro rfl
        exact isBlock (Function.update_self ..)
      rw [Function.update_of_ne different] at isBlock
      obtain ⟨later, isLater, rfl⟩ := useAt.only ptr isBlock
      refine ⟨later, stays later (List.mem_cons_of_mem _ isLater) ?_, rfl⟩
      exact fun same => different (congrArg Piece.ptr same)
  · funext other
    by_cases here : other = moved.ptr
    · rw [here, put_same, Use.store, Use.take_blocks nonnull, Function.update_self]
      exact congrArg some isContents
    · rw [put_other here]
      by_cases isOldPtr : other = piece.ptr
      · rw [isOldPtr] at here
        rw [isOldPtr, put_same, Use.store, Use.take_blocks nonnull, Use.drop_blocks,
          Function.update_of_ne here, Function.update_self]
        rfl
      · rw [put_other isOldPtr]
        refine useAt.store_other ?_ ?_
        · rw [Use.take_blocks nonnull, Use.drop_blocks, Function.update_of_ne here,
            Function.update_of_ne isOldPtr]
        · rintro later isLater rfl
          exact isMoved.others later isLater fun same => isOldPtr (congrArg Piece.ptr same)

/-- A block that gets smaller in its place. -/
theorem shrink (useAt : UseAt use arenas) (member : piece ∈ live arenas)
    (resized : Resized use.heap arenas piece (size.setWidth 32) after further)
    (smaller : size.toNat ≤ piece.reqSize.toNat) :
    UseAt ((use.drop after piece.ptr).take after piece.ptr size.toNat) further ∧
      ((use.drop after piece.ptr).take after piece.ptr size.toNat).store =
        put use.store piece.ptr
          (some ((bytesAt use.heap.memory piece.ptr piece.reqSize.toNat).take size.toNat)) := by
  have heapAt := useAt.heapAt
  have nonnull := ptr_nonnull heapAt member
  obtain ⟨rest, isOld, isNew⟩ := resized.live
  have isSize : (piece.resize (size.setWidth 32)).reqSize.toNat = size.toNat := by
    have bound := piece.reqSize.isLt
    change (size.setWidth 32).toNat = size.toNat
    rw [BitVec.toNat_setWidth, Nat.mod_eq_of_lt (by omega)]
  have distinct := isOld.nodup_iff.mp heapAt.live_nodup
  have others : ∀ later ∈ rest, later ∈ live arenas ∧ later.ptr ≠ piece.ptr := by
    intro later isLater
    have inArenas := isOld.mem_iff.mpr (List.mem_cons_of_mem _ isLater)
    refine ⟨inArenas, fun same => (List.nodup_cons.mp distinct).1 ?_⟩
    exact heapAt.ptr_inj inArenas member same ▸ isLater
  have blocks : ((use.drop after piece.ptr).take after piece.ptr size.toNat).blocks =
      Function.update use.blocks piece.ptr (some size.toNat) := by
    rw [Use.take_blocks nonnull, Use.drop_blocks, Function.update_idem]
  have unlocked : after.locked = false := (congrArg Prod.fst resized.books).trans useAt.unlocked
  refine ⟨⟨resized.heapAt, unlocked, useAt.accounted.congr resized.pages resized.spans,
    resized.occupied useAt.occupied, ?_, ?_⟩, ?_⟩
  · intro later isLater
    rw [blocks]
    rcases List.mem_cons.mp (isNew.mem_iff.mp isLater) with rfl | isRest
    · rw [isSize]
      exact Function.update_self ..
    · obtain ⟨inArenas, different⟩ := others later isRest
      rw [Function.update_of_ne different, useAt.each later inArenas]
  · intro ptr isBlock
    rw [blocks] at isBlock
    by_cases here : ptr = piece.ptr
    · exact ⟨_, isNew.mem_iff.mpr List.mem_cons_self, here.symm⟩
    · rw [Function.update_of_ne here] at isBlock
      obtain ⟨later, isLater, rfl⟩ := useAt.only ptr isBlock
      rcases List.mem_cons.mp (isOld.mem_iff.mp isLater) with rfl | isRest
      · exact absurd rfl here
      · exact ⟨later, isNew.mem_iff.mpr (List.mem_cons_of_mem _ isRest), rfl⟩
  · have agree : ∀ later ∈ live arenas, ∀ address, later.Owns address →
        after.memory address = use.heap.memory address := fun later isLater address owns =>
      resized.kept address (heapAt.owns_not_kept isLater owns)
    funext other
    by_cases here : other = piece.ptr
    · have bound := piece.reqSize.isLt
      rw [here, put_same, Use.store, blocks, Function.update_self,
        bytesAt_take use.heap.memory piece.ptr smaller]
      refine congrArg some (bytesAt_congr fun offset below => agree piece member _ ?_)
      exact inRange_offset _ (by omega) (by omega)
    · rw [put_other here]
      refine useAt.store_other (by rw [blocks, Function.update_of_ne here]) ?_
      exact fun later isLater _ => agree later isLater

/-- A byte that a caller writes. -/
theorem written (useAt : UseAt use arenas) (member : piece ∈ live arenas) {offset : Nat}
    {byte : U8} (inside : offset < piece.reqSize.toNat)
    (isNext : next = { use with
      heap.memory := Function.update use.heap.memory (piece.ptr + BitVec.ofNat 64 offset) byte }) :
    UseAt next arenas ∧ next.store = put use.store piece.ptr
      (some ((bytesAt use.heap.memory piece.ptr piece.reqSize.toNat).set offset byte)) := by
  subst isNext
  have bound := piece.reqSize.isLt
  have heapAt := useAt.heapAt
  have owns : piece.Owns (piece.ptr + BitVec.ofNat 64 offset) := inRange_offset _ (by omega) inside
  have outside : ∀ address, ¬piece.Owns address →
      Function.update use.heap.memory (piece.ptr + BitVec.ofNat 64 offset) byte address =
        use.heap.memory address := by
    intro address notOwn
    refine Function.update_of_ne ?_ _ _
    rintro rfl
    exact notOwn owns
  refine ⟨⟨heapAt.written member outside, useAt.unlocked, ?_, useAt.occupied, useAt.each, useAt.only⟩, ?_⟩
  · exact ⟨useAt.accounted.held, useAt.accounted.valid⟩
  · funext other
    by_cases here : other = piece.ptr
    · rw [here, put_same, Use.store]
      dsimp only
      rw [useAt.each piece member]
      exact congrArg some (bytesAt_update _ _ byte inside (by omega))
    · rw [put_other here]
      refine useAt.store_other rfl ?_
      rintro later isLater rfl address ownsLater
      refine outside address fun ownsPiece => ?_
      have different : later ≠ piece := fun same => here (congrArg Piece.ptr same)
      exact heapAt.separate_of_mem isLater member different address ownsLater ownsPiece

end UseAt

/-! Steps and runs -/

/-- The heap is laid out again, and what happened is a step of the store of blocks. -/
structure Lands (use : Use) (action : Action U64 U8) (next : Use) : Prop where
  useAt : ∃ further, UseAt next further
  step : BlockStore.Step 0#64 0#8 use.store action next.store
  entered : use.heap.pageCalls <+: next.heap.pageCalls

namespace UseAt

theorem kmalloc_lands (useAt : UseAt use arenas) (asked : size.toNat + 112 + 4095 < 2 ^ 32)
    (fresh : FreshPages use.heap size) (call : kmalloc use.heap size = some (ptr, after)) :
    Lands use (.alloc size.toNat ptr) (use.take after ptr size.toNat) := by
  obtain ⟨_, _, isResult, outcome⟩ :=
    kmalloc_allocated useAt.unlocked useAt.heapAt useAt.accounted asked fresh
  obtain ⟨rfl, rfl⟩ := Prod.mk.inj (Option.some.inj (call.symm.trans isResult))
  rcases outcome with ⟨piece, further, allocated⟩ | ⟨rfl, -, memory, unlocked, afterAt, accounted,
    entered⟩
  · obtain ⟨isFresh, furtherUseAt, isStore⟩ := useAt.allocated allocated
    refine ⟨⟨further, furtherUseAt⟩, ?_, allocated.entered⟩
    rw [isStore]
    exact BlockStore.Step.alloc isFresh (length_bytesAt ..)
  · have sameBlocks : (use.take after 0#64 size.toNat).blocks = use.blocks := rfl
    have sameStore : (use.take after 0#64 size.toNat).store = use.store := by
      unfold Use.store
      rw [sameBlocks]
      exact congrArg (fun memory : Memory => fun ptr => (use.blocks ptr).map (bytesAt memory ptr))
        memory
    refine ⟨⟨arenas, afterAt, unlocked, accounted, useAt.occupied, ?_, ?_⟩, ?_, entered⟩
    · rw [sameBlocks]
      exact useAt.each
    · rw [sameBlocks]
      exact useAt.only
    · rw [sameStore]
      exact BlockStore.Step.refused

theorem kcalloc_lands (useAt : UseAt use arenas) {nobj : U64}
    (asked : nobj.toNat * size.toNat + 112 + 4095 < 2 ^ 31)
    (fresh : FreshPages use.heap (nobj * size))
    (call : kcalloc use.heap nobj size = some (ptr, after)) (given : ptr ≠ 0#64) :
    Lands use (.zeroed (nobj.toNat * size.toNat) ptr)
      (use.take after ptr (nobj.toNat * size.toNat)) := by
  obtain ⟨_, _, isResult, outcome⟩ :=
    kcalloc_allocated useAt.unlocked useAt.heapAt useAt.accounted asked fresh
  obtain ⟨rfl, rfl⟩ := Prod.mk.inj (Option.some.inj (call.symm.trans isResult))
  obtain ⟨piece, further, allocated, zeros⟩ := outcome.resolve_right fun refused => given refused.1
  obtain ⟨isFresh, furtherUseAt, isStore⟩ := useAt.allocated allocated
  have isPtr : ptr = piece.ptr := allocated.ptr
  have isZero : bytesAt after.memory ptr (nobj.toNat * size.toNat) =
      List.replicate (nobj.toNat * size.toNat) 0#8 := by
    refine List.eq_replicate_iff.mpr ⟨length_bytesAt .., fun byte member => ?_⟩
    obtain ⟨offset, inside, rfl⟩ := List.mem_map.mp member
    have below := List.mem_range.mp inside
    have bound := piece.reqSize.isLt
    have isSize := allocated.reqSize
    refine zeros _ ?_
    rw [isPtr]
    exact inRange_offset _ (by omega) (by omega)
  refine ⟨⟨further, furtherUseAt⟩, ?_, allocated.entered⟩
  rw [isStore, isZero]
  exact BlockStore.Step.zeroed isFresh

theorem krealloc_lands (useAt : UseAt use arenas) (member : piece ∈ live arenas)
    (positive : size ≠ 0#64) (asked : size.toNat + 112 + 4095 < 2 ^ 32)
    (fresh : FreshPages use.heap size)
    (call : krealloc use.heap piece.ptr size = some (result, after)) (given : result ≠ 0#64) :
    Lands use (.resize piece.ptr size.toNat result)
      ((use.drop after piece.ptr).take after result size.toNat) := by
  have held := useAt.store_ptr member
  have isLength := length_bytesAt use.heap.memory piece.ptr piece.reqSize.toNat
  by_cases smaller : size.toNat ≤ piece.reqSize.toNat
  · rw [krealloc_live useAt.unlocked useAt.heapAt member positive, if_pos smaller] at call
    obtain ⟨rfl, rfl⟩ := Prod.mk.inj (Option.some.inj call)
    have shorter : (size.setWidth 32 : U32).toNat ≤ piece.reqSize.toNat := by
      rw [BitVec.toNat_setWidth]
      exact (Nat.mod_le _ _).trans smaller
    obtain ⟨further, resized⟩ := useAt.heapAt.resize member shorter
    obtain ⟨furtherUseAt, isStore⟩ := useAt.shrink member resized smaller
    refine ⟨⟨further, furtherUseAt⟩, ?_, List.prefix_refl _⟩
    rw [isStore]
    exact BlockStore.Step.shrink held (isLength.symm ▸ smaller)
  · obtain ⟨_, _, isResult, outcome⟩ := krealloc_grow useAt.unlocked useAt.heapAt useAt.accounted
      member asked fresh (Nat.lt_of_not_le smaller)
    obtain ⟨rfl, rfl⟩ := Prod.mk.inj (Option.some.inj (call.symm.trans isResult))
    obtain ⟨moved, further, isMoved⟩ := outcome.resolve_right fun refused => given refused.1
    obtain ⟨furtherUseAt, isFresh, more, isSum, isStore⟩ :=
      useAt.move member isMoved (Nat.lt_of_not_le smaller)
    refine ⟨⟨further, furtherUseAt⟩, ?_, isMoved.entered⟩
    rw [isStore]
    exact BlockStore.Step.move held isFresh (isLength.symm ▸ isSum)

theorem kfree_lands (useAt : UseAt use arenas) (member : piece ∈ live arenas)
    (call : kfree use.heap piece.ptr = some after) :
    Lands use (.free piece.ptr) (use.drop after piece.ptr) := by
  obtain ⟨_, further, isResult, released⟩ := kfree_spec useAt.unlocked useAt.heapAt member
  obtain rfl := Option.some.inj (call.symm.trans isResult)
  obtain ⟨furtherUseAt, isStore⟩ := useAt.released member released
  refine ⟨⟨further, furtherUseAt⟩, ?_, released.returned.entered⟩
  rw [isStore]
  exact BlockStore.Step.free (useAt.store_ptr member)

end UseAt

/-- One call, whichever it is. -/
theorem UseStep.lands (step : UseStep use action next) (useAt : UseAt use arenas) :
    Lands use action next := by
  cases step with
  | malloc asked fresh call => exact useAt.kmalloc_lands asked fresh call
  | calloc asked fresh call given => exact useAt.kcalloc_lands asked fresh call given
  | realloc held positive asked fresh call given =>
      obtain ⟨piece, isPiece, rfl, rfl⟩ := useAt.block held
      exact useAt.krealloc_lands isPiece positive asked fresh call given
  | reallocNull positive asked fresh call =>
      rw [krealloc_null positive] at call
      exact useAt.kmalloc_lands asked fresh call
  | reallocZero held call =>
      obtain ⟨piece, isPiece, rfl, rfl⟩ := useAt.block held
      rw [krealloc_zero] at call
      obtain ⟨after, isAfter, isPair⟩ := Option.map_eq_some_iff.mp call
      obtain ⟨-, rfl⟩ := Prod.mk.inj isPair
      exact useAt.kfree_lands isPiece isAfter
  | free held call =>
      obtain ⟨piece, isPiece, rfl, rfl⟩ := useAt.block held
      exact useAt.kfree_lands isPiece call
  | write held inside =>
      obtain ⟨piece, isPiece, rfl, rfl⟩ := useAt.block held
      obtain ⟨nextUseAt, isStore⟩ := useAt.written isPiece inside rfl
      refine ⟨⟨arenas, nextUseAt⟩, ?_, List.prefix_refl _⟩
      rw [isStore]
      refine BlockStore.Step.write (useAt.store_ptr isPiece) ?_
      rwa [length_bytesAt]

/-- Every run leaves the heap laid out, and is a run of the store of blocks. -/
theorem UseAt.run (useAt : UseAt use arenas) (run : Transition.Run UseStep use actions next) :
    (∃ further, UseAt next further) ∧
      Transition.Run (BlockStore.Step 0#64 0#8) use.store actions next.store := by
  induction run with
  | nil => exact ⟨⟨arenas, useAt⟩, Transition.Run.nil⟩
  | snoc _ step inductionHypothesis =>
      obtain ⟨⟨further, middleUseAt⟩, storeRun⟩ := inductionHypothesis
      have landed := step.lands middleUseAt
      exact ⟨landed.useAt, storeRun.snoc landed.step⟩

end Nekonix
