import Nekonix.Mm.Liballoc.Copying
import Nekonix.Mm.Liballoc.Live
import Nekonix.Mm.Liballoc.Accounts

/-!
# What `kcalloc` and `krealloc` return

A block that gets smaller stays where it is, and one that gets larger moves, with its contents.
-/

namespace Nekonix

open FlatMemory DoublyLinked Packing

variable {heap after : Liballoc} {memory : Memory} {address reqSize : U64} {word : U32}
  {piece : Piece} {arena : Arena} {arenas further front back : List Arena}
  {before behind : List Piece}

/-! In place -/

/-- The minor with another requested size. -/
def Piece.resize (piece : Piece) (word : U32) : Piece := { piece with reqSize := word }

/-- A smaller requested size leaves an arena laid out. -/
theorem ArenaAt.resize (arenaAt : ArenaAt memory arena)
    (split : arena.pieces = before ++ piece :: behind)
    (smaller : word.toNat ≤ piece.reqSize.toNat) :
    ArenaAt (minorReqSize.write memory piece.min word)
      { arena with pieces := before ++ piece.resize word :: behind } := by
  have isPiece : piece ∈ arena.pieces := by simp [split]
  have sameMajor : majorAt (minorReqSize.write memory piece.min word) arena.maj =
      majorAt memory arena.maj :=
    majorAt_write_separate (arenaAt.separate_maj isPiece).symm
  have sameMins : (before ++ piece.resize word :: behind).map Piece.min = arena.mins := by
    simp [Arena.mins, split, Piece.resize]
  have old : ∀ later ∈ before ++ behind, later ∈ arena.pieces ∧
      minorAt (minorReqSize.write memory piece.min word) later.min = minorAt memory later.min := by
    intro later member
    refine ⟨ArenaAt.cut_mem split member, minorAt_write_separate ?_⟩
    exact (arenaAt.separate_cut split member).mono (by decide) (Nat.le_refl 40)
  have links : ∀ min ∈ arena.mins,
      (minorAt (minorReqSize.write memory piece.min word) min).next = (minorAt memory min).next ∧
        (minorAt (minorReqSize.write memory piece.min word) min).prev =
          (minorAt memory min).prev := by
    intro min member
    obtain ⟨later, isLater, rfl⟩ := List.mem_map.mp member
    by_cases here : later.min = piece.min
    · rw [here, minorAt_writeReqSize]
      exact ⟨rfl, rfl⟩
    · rw [minorAt_write_separate (arenaAt.separate_mins isLater isPiece here)]
      exact ⟨rfl, rfl⟩
  have packed : Packed Piece.start Piece.stop arena.low (before ++ piece.resize word :: behind)
      arena.stop := by
    have inOrder := arenaAt.packed
    rw [split] at inOrder
    obtain ⟨inFront, above, proper, inBack⟩ := packed_append.mp inOrder
    exact packed_append.mpr ⟨inFront, above, proper, inBack⟩
  have sameUsed : used Piece.start Piece.stop (before ++ piece.resize word :: behind) =
      used Piece.start Piece.stop arena.pieces := by
    rw [split, used_append, used_append, used_cons, used_cons]
    rfl
  refine ⟨arenaAt.nonnull, arenaAt.noWrap, arenaAt.short, ?_, ?_, ?_, ?_, packed, ?_, ?_⟩
  · exact (congrArg Major.pages sameMajor).trans arenaAt.pages
  · exact (congrArg Major.size sameMajor).trans arenaAt.size
  · dsimp only
    rw [sameMajor, sameUsed]
    exact arenaAt.usage
  · refine (congrArg Major.first sameMajor).trans (arenaAt.first.trans ?_)
    rw [Arena.mins, Arena.mins, sameMins]
    rfl
  · rw [Arena.mins, sameMins]
    exact arenaAt.chain.congr (fun min member => (links min member).1)
      fun min member => (links min member).2
  · intro later member
    have isLater : later ∈ before ++ behind ∨ later = piece.resize word := by
      simp only [List.mem_append, List.mem_cons] at member ⊢
      tauto
    rcases isLater with isOld | rfl
    · obtain ⟨inArena, header⟩ := old later isOld
      have earlier := arenaAt.pieces later inArena
      refine ⟨?_, ?_, ?_, ?_, ?_, earlier.room⟩
      · rw [header, earlier.block]
      · rw [header, earlier.magic]
      · rw [header, earlier.size]
      · rw [header, earlier.reqSize]
      · rw [Field.write_outside (by decide) ((arenaAt.separate_cut split isOld) _ (diff_inRange _)),
          earlier.diff]
    · have earlier := arenaAt.pieces piece isPiece
      unfold Piece.resize
      refine ⟨?_, ?_, ?_, ?_, ?_, ?_⟩
      · rw [minorAt_writeReqSize, ← earlier.block]
      · rw [minorAt_writeReqSize, ← earlier.magic]
      · rw [minorAt_writeReqSize, ← earlier.size]
      · rw [minorAt_writeReqSize]
      · rw [Field.write_outside (by decide) (diff_outside _), earlier.diff]
      · have room := earlier.room
        dsimp only
        omega

/-- A minor keeps its place with a smaller requested size. -/
structure Resized (heap : Liballoc) (arenas : List Arena) (piece : Piece) (word : U32)
    (after : Liballoc) (further : List Arena) : Prop where
  heapAt : HeapAt after further
  live : ∃ rest, (live arenas).Perm (piece :: rest) ∧
    (live further).Perm (piece.resize word :: rest)
  kept : ∀ address, ¬Kept arenas address → after.memory address = heap.memory address
  books : after.books = heap.books
  pages : after.pages = heap.pages
  spans : spans further = spans arenas
  occupied : Occupied arenas → Occupied further

theorem HeapAt.resize (heapAt : HeapAt heap arenas) (member : piece ∈ live arenas)
    (smaller : word.toNat ≤ piece.reqSize.toNat) :
    ∃ further, Resized heap arenas piece word (heap.write minorReqSize piece.min word) further := by
  obtain ⟨front, arena, back, before, behind, rfl, split⟩ := mem_live member
  have arenaAt := heapAt.arenaAt
  have isPiece : piece ∈ arena.pieces := by simp [split]
  have changedAt := arenaAt.resize split smaller
  have sameMajor : majorAt (minorReqSize.write heap.memory piece.min word) arena.maj =
      majorAt heap.memory arena.maj :=
    majorAt_write_separate (arenaAt.separate_maj isPiece).symm
  have offReserved : ∀ address, ¬arena.Reserved address →
      minorReqSize.write heap.memory piece.min word address = heap.memory address := by
    intro address notReserved
    refine Field.write_outside (by decide) fun inMinor => notReserved ?_
    exact Or.inr ⟨piece, isPiece, inMinor.mono (by decide)⟩
  refine ⟨_, heapAt.replace changedAt rfl rfl ?_ ?_ ?_ rfl heapAt.bestBet rfl ?_, ?_, ?_, rfl, rfl,
    ?_, ?_⟩
  · exact congrArg Major.prev sameMajor
  · exact congrArg Major.next sameMajor
  · intro address outside
    exact offReserved address fun reserved => outside (arenaAt.reserved_bounds reserved)
  · simp [Arena.inuse, split, Piece.resize]
  · refine ⟨live front ++ (before ++ (behind ++ live back)), ?_, ?_⟩
    · simp only [live, List.flatMap_append, List.flatMap_cons, split, List.append_assoc,
        List.cons_append]
      rw [← List.append_assoc, ← List.append_assoc]
      exact List.perm_middle
    · simp only [live, List.flatMap_append, List.flatMap_cons, List.append_assoc, List.cons_append]
      rw [← List.append_assoc, ← List.append_assoc]
      exact List.perm_middle
  · exact fun address notKept => offReserved address fun reserved =>
      notKept ⟨arena, by simp, reserved⟩
  · simp [spans]
  · exact fun occupied => occupied.replace (by simp)

/-! Elsewhere -/

theorem unlock_lock (unlocked : heap.locked = false) :
    ({ heap with locked := true } : Liballoc).unlock = heap := by
  obtain ⟨memory, locked⟩ := heap
  dsimp only at unlocked
  subst unlocked
  rfl

theorem krealloc_null {size : U64} (positive : size ≠ 0#64) :
    krealloc heap 0#64 size = kmalloc heap size := by
  unfold krealloc
  rw [if_neg positive, if_pos rfl]

theorem krealloc_zero {ptr : U64} :
    krealloc heap ptr 0#64 = (kfree heap ptr).map fun heap => (0#64, heap) := by
  unfold krealloc
  rw [if_pos rfl]
  exact Option.map_eq_bind.symm

/-- `krealloc` of a block that is out: in place, or by a copy to a new block. -/
theorem krealloc_live {size : U64} (unlocked : heap.locked = false) (heapAt : HeapAt heap arenas)
    (member : piece ∈ live arenas) (positive : size ≠ 0#64) :
    krealloc heap piece.ptr size =
      if size.toNat ≤ piece.reqSize.toNat then
        some (piece.ptr, heap.write minorReqSize piece.min (size.setWidth 32))
      else
        (kmalloc heap size).bind fun (ptr, heap) =>
          (kfree { heap with
            memory := liballocMemcpy heap.memory ptr piece.ptr piece.reqSize.toNat } piece.ptr).map
              fun heap => (ptr, heap) := by
  obtain ⟨arena, isArena, isPiece⟩ := List.mem_flatMap.mp member
  have arenaAt := heapAt.each arena isArena
  have isMagic : heap.read minorMagic piece.min = liballocMagic := (arenaAt.pieces piece isPiece).magic
  have isReqSize : heap.read minorReqSize piece.min = piece.reqSize :=
    (arenaAt.pieces piece isPiece).reqSize
  have isHeader := arenaAt.header isPiece
  have fits : piece.reqSize.setWidth 64 ≥ size ↔ size.toNat ≤ piece.reqSize.toNat := by
    have bound := piece.reqSize.isLt
    rw [ge_iff_le, BitVec.le_def, BitVec.toNat_setWidth, Nat.mod_eq_of_lt (by omega)]
  have relocked := unlock_lock unlocked
  have sameWrite : (({ heap with locked := true } : Liballoc).write minorReqSize piece.min
      (size.setWidth 32)).unlock = heap.write minorReqSize piece.min (size.setWidth 32) :=
    congrArg (fun heap : Liballoc => heap.write minorReqSize piece.min (size.setWidth 32)) relocked
  have sameMagic : ({ heap with locked := true } : Liballoc).read minorMagic piece.min =
      liballocMagic := isMagic
  have sameReqSize : ({ heap with locked := true } : Liballoc).read minorReqSize piece.min =
      piece.reqSize := isReqSize
  unfold krealloc Liballoc.lock
  rw [if_neg positive, if_neg (arenaAt.ptr_ne_zero isPiece), unlocked]
  simp only [isHeader, Bool.false_eq_true, if_false, Option.bind_eq_bind, Option.bind_some,
    sameMagic, sameReqSize, sameWrite, relocked, ne_eq, not_true_eq_false, fits]
  split_ifs
  · rfl
  · refine congrArg (Option.bind (kmalloc heap size)) (funext fun pair => ?_)
    exact Option.map_eq_bind.symm

theorem kfree_returns {ptr : U64} (unlocked : heap.locked = false) :
    ∃ after, kfree heap ptr = some after ∧ after.locked = false := by
  unfold kfree Liballoc.lock
  rw [unlocked]
  by_cases isNull : ptr = 0#64
  · exact ⟨_, if_pos isNull, rfl⟩
  · exact ⟨_, if_neg isNull, rfl⟩

/-- Callers may write to their own bytes. -/
theorem HeapAt.written {other : Memory} (heapAt : HeapAt heap arenas) (member : piece ∈ live arenas)
    (agree : ∀ address, ¬piece.Owns address → other address = heap.memory address) :
    HeapAt { heap with memory := other } arenas := by
  refine heapAt.congr fun arena isArena address reserved => agree address fun owns => ?_
  exact heapAt.owns_not_kept member owns ⟨arena, isArena, reserved⟩

/-- A moved block: the new one has the old contents, and the old one is gone. -/
structure Moved (heap : Liballoc) (arenas : List Arena) (piece : Piece) (size : U64)
    (result : U64 × Liballoc) (moved : Piece) (further : List Arena) : Prop where
  ptr : result.1 = moved.ptr
  heapAt : HeapAt result.2 further
  live : (moved :: live arenas).Perm (piece :: live further)
  fresh : ∀ other ∈ Nekonix.live arenas, other.ptr ≠ moved.ptr
  reqSize : moved.reqSize.toNat = size.toNat
  contents : ∀ offset < piece.reqSize.toNat,
    result.2.memory (moved.ptr + BitVec.ofNat 64 offset) =
      heap.memory (piece.ptr + BitVec.ofNat 64 offset)
  others : ∀ other ∈ Nekonix.live arenas, other ≠ piece → ∀ address, other.Owns address →
    result.2.memory address = heap.memory address
  unlocked : result.2.locked = false
  occupied : Occupied arenas → Occupied further
  accounted : Accounted heap arenas → Accounted result.2 further
  entered : heap.pageCalls <+: result.2.pageCalls

/-- The copy into the new block, and the release of the old one. -/
theorem moveBlock {size ptr : U64} {moved : Piece} (unlocked : heap.locked = false)
    (granted : MinorGranted heap arenas size (ptr, after) moved further) (member : piece ∈ live arenas)
    (larger : piece.reqSize.toNat < size.toNat)
    (occupied : Occupied arenas → Occupied further)
    (accounted : Accounted heap arenas → Accounted after further)
    (entered : heap.pageCalls <+: after.pageCalls) :
    ∃ later, kfree { after with
        memory := liballocMemcpy after.memory ptr piece.ptr piece.reqSize.toNat } piece.ptr =
          some later ∧
      ∃ final, Moved heap arenas piece size (ptr, later) moved final := by
  have isMoved : moved ∈ live further := granted.live.mem_iff.mpr List.mem_cons_self
  have old : ∀ other ∈ live arenas, other ∈ live further ∧ other ≠ moved := by
    intro other isOther
    have distinct := granted.live.nodup_iff.mp granted.heapAt.live_nodup
    refine ⟨granted.live.mem_iff.mpr (List.mem_cons_of_mem _ isOther), ?_⟩
    rintro rfl
    exact (List.nodup_cons.mp distinct).1 isOther
  obtain ⟨isPiece, notMoved⟩ := old piece member
  have isPtr : ptr = moved.ptr := granted.ptr
  have furtherAt : HeapAt after further := granted.heapAt
  have isSize := granted.reqSize
  subst isPtr
  have bound := piece.reqSize.isLt
  have inMoved : ∀ address, InRange moved.ptr piece.reqSize.toNat address → moved.Owns address :=
    fun address inside => InRange.mono inside (by omega)
  have outside : ∀ address, ¬moved.Owns address →
      liballocMemcpy after.memory moved.ptr piece.ptr piece.reqSize.toNat address =
        after.memory address := fun address notOwn =>
    liballocMemcpy_outside (by omega) fun inside => notOwn (inMoved address inside)
  have isUnlocked : after.locked = false := (congrArg Prod.fst granted.books).trans unlocked
  have copiedAt := furtherAt.written isMoved outside
  have sameUnlocked : Liballoc.locked { after with
      memory := liballocMemcpy after.memory moved.ptr piece.ptr piece.reqSize.toNat } = false :=
    isUnlocked
  obtain ⟨later, final, isLater, released⟩ := kfree_spec sameUnlocked copiedAt isPiece
  have ownAt : ∀ offset < piece.reqSize.toNat,
      piece.Owns (piece.ptr + BitVec.ofNat 64 offset) := fun offset below =>
    inRange_offset _ (by omega) below
  refine ⟨later, isLater, final, rfl, released.heapAt, ?_, ?_, isSize, ?_, ?_, ?_,
    fun before => released.occupied (occupied before), ?_,
    entered.trans released.returned.entered⟩
  · exact granted.live.symm.trans released.live
  · intro other isOther same
    obtain ⟨inFurther, different⟩ := old other isOther
    exact different (furtherAt.ptr_inj inFurther isMoved same)
  · intro offset below
    have inside := inRange_offset moved.ptr (by omega : offset < 2 ^ 64) below
    have position : moved.ptr + BitVec.ofNat 64 offset - moved.ptr = BitVec.ofNat 64 offset := by
      rw [BitVec.add_comm, BitVec.add_sub_cancel]
    have apart : ∀ offset < piece.reqSize.toNat,
        ¬InRange moved.ptr piece.reqSize.toNat (piece.ptr + BitVec.ofNat 64 offset) :=
      fun offset below inMove => furtherAt.separate_of_mem isPiece isMoved notMoved _
        (ownAt offset below) (inMoved _ inMove)
    rw [released.kept _ (furtherAt.owns_not_kept isMoved (inMoved _ inside))]
    dsimp only
    rw [liballocMemcpy_eq_copy (by omega) apart, copy_inside inside, position]
    exact granted.kept _ (furtherAt.owns_not_kept isPiece (ownAt offset below))
  · intro other isOther different address owns
    obtain ⟨inFurther, otherMoved⟩ := old other isOther
    have notKept := furtherAt.owns_not_kept inFurther owns
    have notMovedOwn : ¬moved.Owns address :=
      furtherAt.separate_of_mem inFurther isMoved otherMoved _ owns
    rw [released.kept _ notKept]
    exact (outside address notMovedOwn).trans (granted.kept _ notKept)
  · exact (congrArg Prod.fst released.books).trans isUnlocked
  · intro before
    obtain ⟨held, valid⟩ := accounted before
    have copied : Accounted { after with
        memory := liballocMemcpy after.memory moved.ptr piece.ptr piece.reqSize.toNat } further :=
      ⟨held, valid⟩
    exact copied.returned released.returned

/-- `krealloc` of a block to a larger size. -/
theorem krealloc_grow {size : U64} (unlocked : heap.locked = false) (heapAt : HeapAt heap arenas)
    (accounted : Accounted heap arenas) (member : piece ∈ live arenas)
    (asked : size.toNat + 112 + 4095 < 2 ^ 32) (fresh : FreshPages heap size)
    (larger : piece.reqSize.toNat < size.toNat) :
    ∃ ptr after, krealloc heap piece.ptr size = some (ptr, after) ∧
      ((∃ moved further, Moved heap arenas piece size (ptr, after) moved further) ∨
        ptr = 0#64 ∧ heap.supply.headD 0#64 = 0#64 ∧ after.locked = false) := by
  have positive : size ≠ 0#64 := by
    rintro rfl
    exact Nat.not_lt_zero _ larger
  have notSmaller : ¬size.toNat ≤ piece.reqSize.toNat := by omega
  obtain ⟨⟨ptr, mid⟩, isResult, searched⟩ :=
    kmalloc_spec asked unlocked heapAt (accounted.supplied fresh)
  rw [krealloc_live unlocked heapAt member positive, if_neg notSmaller, isResult, Option.bind_some]
  dsimp only
  rcases accounted.searched searched with ⟨moved, further, granted, occupied, after⟩ | refused
  · obtain ⟨later, isLater, final, isMoved⟩ :=
      moveBlock unlocked granted member larger (fun before => occupied before) (fun _ => after)
        searched.entered
    exact ⟨ptr, later, by rw [isLater]; rfl, Or.inl ⟨moved, final, isMoved⟩⟩
  · obtain ⟨isNull, given, -, sameLock, -⟩ := refused
    have midUnlocked : Liballoc.locked { mid with
        memory := liballocMemcpy mid.memory ptr piece.ptr piece.reqSize.toNat } = false :=
      sameLock.trans unlocked
    obtain ⟨after, isAfter, isUnlocked⟩ := kfree_returns midUnlocked
    exact ⟨ptr, after, by rw [isAfter]; rfl, Or.inr ⟨isNull, given, isUnlocked⟩⟩

/-! New blocks -/

/-- A new block is out, and the others keep their contents. -/
structure Allocated (heap : Liballoc) (arenas : List Arena) (bytes : Nat) (result : U64 × Liballoc)
    (piece : Piece) (further : List Arena) : Prop where
  ptr : result.1 = piece.ptr
  heapAt : HeapAt result.2 further
  live : (live further).Perm (piece :: live arenas)
  reqSize : piece.reqSize.toNat = bytes
  others : ∀ other ∈ Nekonix.live arenas, ∀ address, other.Owns address →
    result.2.memory address = heap.memory address
  unlocked : result.2.locked = false
  occupied : Occupied arenas → Occupied further
  accounted : Accounted result.2 further
  entered : heap.pageCalls <+: result.2.pageCalls

/-- What `kcalloc` asks for, where the product is a positive `int`. -/
theorem realSize_eq (nobj size : U64) (asked : nobj.toNat * size.toNat < 2 ^ 31) :
    ((nobj * size).setWidth 32).signExtend 64 = nobj * size ∧
      (nobj * size).toNat = nobj.toNat * size.toNat := by
  have product : (nobj * size).toNat = nobj.toNat * size.toNat := by
    rw [BitVec.toNat_mul, Nat.mod_eq_of_lt (by omega)]
  have positive : ((nobj * size).setWidth 32).msb = false := by
    rw [BitVec.msb_eq_decide, BitVec.toNat_setWidth]
    exact decide_eq_false (by omega)
  refine ⟨?_, product⟩
  rw [BitVec.signExtend_eq_setWidth_of_msb_false positive]
  apply BitVec.eq_of_toNat_eq
  rw [BitVec.toNat_setWidth, BitVec.toNat_setWidth]
  omega

section Request

variable (unlocked : heap.locked = false) (heapAt : HeapAt heap arenas)
  (accounted : Accounted heap arenas)
include unlocked heapAt accounted

theorem kmalloc_allocated {size : U64} (asked : size.toNat + 112 + 4095 < 2 ^ 32)
    (fresh : FreshPages heap size) :
    ∃ ptr after, kmalloc heap size = some (ptr, after) ∧
      ((∃ piece further, Allocated heap arenas size.toNat (ptr, after) piece further) ∨
        ptr = 0#64 ∧ heap.supply.headD 0#64 = 0#64 ∧ after.memory = heap.memory ∧
          after.locked = false ∧ HeapAt after arenas ∧ Accounted after arenas ∧
          heap.pageCalls <+: after.pageCalls) := by
  obtain ⟨⟨ptr, after⟩, isResult, searched⟩ :=
    kmalloc_spec asked unlocked heapAt (accounted.supplied fresh)
  refine ⟨ptr, after, isResult, ?_⟩
  rcases accounted.searched searched with ⟨piece, further, granted, occupied, isAccounted⟩ | refused
  · refine Or.inl ⟨piece, further, granted.ptr, granted.heapAt, granted.live, granted.reqSize, ?_,
      (congrArg Prod.fst granted.books).trans unlocked, occupied, isAccounted, searched.entered⟩
    intro other isOther address owns
    have inFurther : other ∈ live further :=
      granted.live.mem_iff.mpr (List.mem_cons_of_mem _ isOther)
    exact granted.kept _ (granted.heapAt.owns_not_kept inFurther owns)
  · obtain ⟨isNull, given, memory, sameLock, afterAt, isAccounted⟩ := refused
    exact Or.inr ⟨isNull, given, memory, sameLock.trans unlocked, afterAt, isAccounted,
      searched.entered⟩

theorem kcalloc_allocated {nobj size : U64}
    (asked : nobj.toNat * size.toNat + 112 + 4095 < 2 ^ 31)
    (fresh : FreshPages heap (nobj * size)) :
    ∃ ptr after, kcalloc heap nobj size = some (ptr, after) ∧
      ((∃ piece further,
          Allocated heap arenas (nobj.toNat * size.toNat) (ptr, after) piece further ∧
          ∀ address, piece.Owns address → after.memory address = 0#8) ∨
        ptr = 0#64 ∧ heap.supply.headD 0#64 = 0#64 ∧ after.locked = false) := by
  obtain ⟨isReal, product⟩ := realSize_eq nobj size (by omega)
  obtain ⟨ptr, after, isResult, outcome⟩ := kmalloc_allocated unlocked heapAt accounted
    (by omega : (nobj * size).toNat + 112 + 4095 < 2 ^ 32) fresh
  have isSet : ∀ memory : Memory, liballocMemset memory ptr 0#8 (nobj * size) =
      some (fill memory (nobj.toNat * size.toNat) ptr 0#8) := by
    intro memory
    unfold liballocMemset
    rw [product, if_pos (by omega), memset_eq_fill _ _ _ (by omega)]
  refine ⟨ptr, { after with memory := fill after.memory (nobj.toNat * size.toNat) ptr 0#8 }, ?_, ?_⟩
  · unfold kcalloc
    simp only [isReal, isResult, isSet, Option.bind_eq_bind, Option.bind_some]
    rfl
  · rcases outcome with ⟨piece, further, allocated⟩ | ⟨isNull, given, -, isUnlocked, -⟩
    · have isPtr : ptr = piece.ptr := allocated.ptr
      have isSize : piece.reqSize.toNat = nobj.toNat * size.toNat :=
        allocated.reqSize.trans product
      have furtherAt : HeapAt after further := allocated.heapAt
      have isPiece : piece ∈ live further := allocated.live.mem_iff.mpr List.mem_cons_self
      have distinct := allocated.live.nodup_iff.mp furtherAt.live_nodup
      have inBlock : ∀ address, InRange ptr (nobj.toNat * size.toNat) address ↔
          piece.Owns address := by
        intro address
        rw [isPtr, ← isSize]
        rfl
      have outside : ∀ address, ¬piece.Owns address →
          fill after.memory (nobj.toNat * size.toNat) ptr 0#8 address = after.memory address :=
        fun address notOwn => fill_outside fun inside => notOwn ((inBlock address).mp inside)
      refine Or.inl ⟨piece, further, ⟨isPtr, furtherAt.written isPiece outside, allocated.live,
        isSize, ?_, allocated.unlocked, allocated.occupied, ?_, allocated.entered⟩, ?_⟩
      · intro other isOther address owns
        have inFurther : other ∈ live further :=
          allocated.live.mem_iff.mpr (List.mem_cons_of_mem _ isOther)
        have different : other ≠ piece := by
          rintro rfl
          exact (List.nodup_cons.mp distinct).1 isOther
        have notOwn := furtherAt.separate_of_mem inFurther isPiece different _ owns
        exact (outside address notOwn).trans (allocated.others other isOther address owns)
      · exact ⟨allocated.accounted.held, allocated.accounted.valid⟩
      · exact fun address owns => fill_inside ((inBlock address).mpr owns)
    · exact Or.inr ⟨isNull, given, isUnlocked⟩

end Request

end Nekonix
