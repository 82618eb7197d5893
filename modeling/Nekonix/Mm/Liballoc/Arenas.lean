import Nekonix.Mm.Liballoc.Pieces

/-!
# Arenas that come and go

The list of majors grows at its end by the pages that `liballoc_alloc` returns, and lets an
arena go when its last minor does.  Arenas do not reach into one another, so what happens in
one leaves the others laid out.
-/

namespace Nekonix

open FlatMemory DoublyLinked Packing

variable {heap after : Liballoc} {memory other : Memory} {page address : U64} {count : U32}
  {arena changed further : Arena} {arenas front back : List Arena}

theorem Arena.Beside.symm (beside : arena.Beside further) : further.Beside arena := Or.symm beside

/-- The address lies in the pages of the arena. -/
def Arena.Holds (arena : Arena) (address : U64) : Prop :=
  arena.maj.toNat ≤ address.toNat ∧ address.toNat < arena.stop

theorem Arena.Beside.not_holds (beside : arena.Beside further) (holds : arena.Holds address) :
    ¬further.Holds address := by
  unfold Arena.Beside at beside
  unfold Arena.Holds at *
  omega

/-- The last of some majors, or NULL. -/
def leftMaj (arenas : List Arena) : U64 := (arenas.map Arena.maj).getLastD 0#64

/-- The first of some majors, or NULL. -/
def rightMaj (arenas : List Arena) : U64 := (arenas.map Arena.maj).headD 0#64

theorem leftMaj_cases (arenas : List Arena) :
    arenas = [] ∧ leftMaj arenas = 0#64 ∨
      ∃ init arena, arenas = init ++ [arena] ∧ leftMaj arenas = arena.maj := by
  rcases List.eq_nil_or_concat arenas with rfl | ⟨init, arena, rfl⟩
  · exact Or.inl ⟨rfl, rfl⟩
  · exact Or.inr ⟨init, arena, List.concat_eq_append .., by simp [leftMaj]⟩

theorem rightMaj_cases (arenas : List Arena) :
    arenas = [] ∧ rightMaj arenas = 0#64 ∨
      ∃ arena rest, arenas = arena :: rest ∧ rightMaj arenas = arena.maj := by
  cases arenas with
  | nil => exact Or.inl ⟨rfl, rfl⟩
  | cons arena rest => exact Or.inr ⟨arena, rest, rfl, rfl⟩

/-- Where the majors are what they were, so are their links. -/
theorem majorAt_beyond (arenaAt : ArenaAt memory arena)
    (agree : ∀ address, arena.Holds address → other address = memory address) :
    majorAt other arena.maj = majorAt memory arena.maj :=
  majorAt_congr fun address inside => agree address (arenaAt.reserved_bounds (Or.inl inside))

theorem Arena.beside_of_mem (beside : arenas.Pairwise Arena.Beside) (member : arena ∈ arenas)
    (other : further ∈ arenas) (different : arena ≠ further) : arena.Beside further :=
  have : Std.Symm Arena.Beside := ⟨fun _ _ => Arena.Beside.symm⟩
  beside.forall member other different

theorem ArenaAt.separate_majs (arenaAt : ArenaAt memory arena) (otherAt : ArenaAt memory further)
    (beside : arena.Beside further) : Separate arena.maj 40 further.maj 40 := by
  intro address inside inFurther
  refine beside.not_holds (arenaAt.reserved_bounds (Or.inl inside)) ?_
  exact otherAt.reserved_bounds (Or.inl inFurther)

namespace HeapAt

theorem beside_of (heapAt : HeapAt heap (front ++ arena :: back))
    (member : further ∈ front ++ back) : arena.Beside further := by
  obtain ⟨-, inBack, across⟩ := List.pairwise_append.mp heapAt.beside
  rcases List.mem_append.mp member with inFront | behind
  · exact (across further inFront arena List.mem_cons_self).symm
  · exact (List.pairwise_cons.mp inBack).1 further behind

theorem arenaAt (heapAt : HeapAt heap (front ++ arena :: back)) : ArenaAt heap.memory arena :=
  heapAt.each arena (by simp)

theorem old (heapAt : HeapAt heap (front ++ arena :: back)) (member : further ∈ front ++ back) :
    ArenaAt heap.memory further := by
  refine heapAt.each further ?_
  rcases List.mem_append.mp member with inFront | inBack
  · exact List.mem_append_left _ inFront
  · exact List.mem_append_right _ (List.mem_cons_of_mem _ inBack)

theorem nodup (heapAt : HeapAt heap arenas) : (arenas.map Arena.maj).Nodup := by
  refine List.pairwise_map.mpr (heapAt.beside.imp_of_mem ?_)
  intro arena further member otherMember beside same
  have stop := (heapAt.each arena member).stop_ge
  have otherStop := (heapAt.each further otherMember).stop_ge
  unfold Arena.Beside at beside
  rw [same] at beside stop
  omega

theorem nonnull (heapAt : HeapAt heap arenas) : ∀ maj ∈ arenas.map Arena.maj, maj ≠ 0#64 := by
  intro maj member
  obtain ⟨arena, isArena, rfl⟩ := List.mem_map.mp member
  exact (heapAt.each arena isArena).nonnull

/-- The heap is laid out where the bytes that it keeps for itself are what they were. -/
theorem congr (heapAt : HeapAt heap arenas)
    (agree : ∀ arena ∈ arenas, ∀ address, arena.Reserved address →
      other address = heap.memory address) : HeapAt { heap with memory := other } arenas := by
  have same : ∀ maj ∈ arenas.map Arena.maj, majorAt other maj = majorAt heap.memory maj := by
    intro maj member
    obtain ⟨arena, isArena, rfl⟩ := List.mem_map.mp member
    exact majorAt_congr fun address inside => agree arena isArena address (Or.inl inside)
  refine ⟨heapAt.root, heapAt.chain.congr ?_ ?_, ?_, heapAt.beside, heapAt.bestBet,
    heapAt.allocated, heapAt.inuse⟩
  · intro maj member
    rw [same maj member]
  · intro maj member
    rw [same maj member]
  · exact fun arena member => (heapAt.each arena member).congr (agree arena member)

/-- A change inside one arena. -/
theorem replace (heapAt : HeapAt heap (front ++ arena :: back))
    (changedAt : ArenaAt after.memory changed) (sameMaj : changed.maj = arena.maj)
    (samePages : changed.pages = arena.pages)
    (prev : (majorAt after.memory arena.maj).prev = (majorAt heap.memory arena.maj).prev)
    (next : (majorAt after.memory arena.maj).next = (majorAt heap.memory arena.maj).next)
    (beyond : ∀ address, ¬arena.Holds address → after.memory address = heap.memory address)
    (root : after.memRoot = heap.memRoot)
    (bestBet : after.bestBet = 0#64 ∨ after.bestBet ∈ (front ++ arena :: back).map Arena.maj)
    (allocated : after.allocated = heap.allocated)
    (inuse : after.inuse + BitVec.ofNat 64 arena.inuse =
      heap.inuse + BitVec.ofNat 64 changed.inuse) :
    HeapAt after (front ++ changed :: back) := by
  have majs : (front ++ changed :: back).map Arena.maj = (front ++ arena :: back).map Arena.maj := by
    simp [sameMaj]
  have others : ∀ further ∈ front ++ back, ∀ address, further.Holds address →
      after.memory address = heap.memory address := by
    intro further member address holds
    exact beyond address ((heapAt.beside_of member).symm.not_holds holds)
  have sameMajors : ∀ further ∈ front ++ back,
      majorAt after.memory further.maj = majorAt heap.memory further.maj := fun further member =>
    majorAt_beyond (heapAt.old member) (others further member)
  have split : ∀ further ∈ front ++ arena :: back, further ∈ front ++ back ∨ further = arena := by
    intro further member
    simp only [List.mem_append, List.mem_cons] at member ⊢
    tauto
  refine ⟨?_, ?_, ?_, ?_, ?_, ?_, ?_⟩
  · rw [root, majs, heapAt.root]
  · rw [majs]
    refine heapAt.chain.congr ?_ ?_
    · intro maj member
      obtain ⟨further, isArena, rfl⟩ := List.mem_map.mp member
      rcases split further isArena with old | rfl
      · rw [sameMajors further old]
      · exact next
    · intro maj member
      obtain ⟨further, isArena, rfl⟩ := List.mem_map.mp member
      rcases split further isArena with old | rfl
      · rw [sameMajors further old]
      · exact prev
  · have stays : ∀ further ∈ front ++ back, ArenaAt after.memory further := fun further member =>
      (heapAt.old member).congr fun address reserved =>
        others further member address ((heapAt.old member).reserved_bounds reserved)
    intro further member
    rcases List.mem_append.mp member with inFront | inBack
    · exact stays further (List.mem_append_left _ inFront)
    · rcases List.mem_cons.mp inBack with rfl | behind
      · exact changedAt
      · exact stays further (List.mem_append_right _ behind)
  · have sameStop : changed.stop = arena.stop := by rw [Arena.stop, Arena.stop, sameMaj, samePages]
    have besides : ∀ further ∈ front ++ back, changed.Beside further := by
      intro further member
      rw [Arena.Beside, sameStop, sameMaj]
      exact heapAt.beside_of member
    obtain ⟨inFront, inBack, across⟩ := List.pairwise_append.mp heapAt.beside
    refine List.pairwise_append.mpr ⟨inFront, List.pairwise_cons.mpr ⟨?_, ?_⟩, ?_⟩
    · exact fun further member => besides further (List.mem_append_right _ member)
    · exact (List.pairwise_cons.mp inBack).2
    · intro first isFirst second isSecond
      rcases List.mem_cons.mp isSecond with rfl | behind
      · exact (besides first (List.mem_append_left _ isFirst)).symm
      · exact across first isFirst second (List.mem_cons_of_mem _ behind)
  · rw [majs]
    exact bestBet
  · rw [allocated, heapAt.allocated]
    simp [samePages]
  · have before := heapAt.inuse
    simp only [List.map_append, List.map_cons, List.sum_append, List.sum_cons,
      BitVec.ofNat_add] at before ⊢
    rw [before] at inuse
    generalize BitVec.ofNat 64 arena.inuse = fewer at *
    generalize BitVec.ofNat 64 changed.inuse = more at *
    bv_omega

end HeapAt

/-! What a change of the list leaves alone -/

/-- A change at `page`, which is in no arena, and of the links between two parts of the arenas. -/
structure Respliced (memory other : Memory) (front : List Arena) (page : U64) (width : Nat)
    (back : List Arena) (forward backward : U64) : Prop where
  apart : ∀ arena ∈ front ++ back, ∀ address, arena.Holds address → ¬InRange page width address
  atLeft : leftMaj front ≠ 0#64 →
    majorAt other (leftMaj front) = { majorAt memory (leftMaj front) with next := forward }
  atRight : rightMaj back ≠ 0#64 →
    majorAt other (rightMaj back) = { majorAt memory (rightMaj back) with prev := backward }
  outside : ∀ address, ¬InRange page width address →
    (leftMaj front ≠ 0#64 → ¬InRange (leftMaj front) 40 address) →
    (rightMaj back ≠ 0#64 → ¬InRange (rightMaj back) 40 address) → other address = memory address

namespace Respliced

variable {forward backward : U64} {width : Nat}

/-- A byte that is not at the page and in no header of a major. -/
theorem unchanged (respliced : Respliced memory other front page width back forward backward)
    (offPage : ¬InRange page width address)
    (offMajors : ∀ arena ∈ front ++ back, ¬InRange arena.maj 40 address) :
    other address = memory address := by
  refine respliced.outside address offPage ?_ ?_
  · intro nonnull
    obtain ⟨init, left, isFront, isMaj⟩ := (leftMaj_cases front).resolve_left fun h => nonnull h.2
    rw [isMaj]
    exact offMajors left (by simp [isFront])
  · intro nonnull
    obtain ⟨right, rest, isBack, isMaj⟩ := (rightMaj_cases back).resolve_left fun h => nonnull h.2
    rw [isMaj]
    exact offMajors right (by simp [isBack])

/-- A major keeps its header, links across the change apart. -/
theorem old (respliced : Respliced memory other front page width back forward backward)
    (each : ∀ arena ∈ front ++ back, ArenaAt memory arena)
    (beside : (front ++ back).Pairwise Arena.Beside) (member : arena ∈ front ++ back) :
    majorAt other arena.maj =
      { majorAt memory arena.maj with
        next := if arena.maj = leftMaj front then forward else (majorAt memory arena.maj).next
        prev := if arena.maj = rightMaj back then backward else (majorAt memory arena.maj).prev } := by
  have nonnull := (each arena member).nonnull
  have apartMaj : ∀ further ∈ front ++ back, arena.maj ≠ further.maj →
      Separate arena.maj 40 further.maj 40 := by
    intro further isArena different
    refine (each arena member).separate_majs (each further isArena) ?_
    exact Arena.beside_of_mem beside member isArena fun same => different (congrArg Arena.maj same)
  by_cases isLeft : arena.maj = leftMaj front
  · have leftNonnull : leftMaj front ≠ 0#64 := isLeft ▸ nonnull
    have notRight : arena.maj ≠ rightMaj back := by
      intro isRight
      obtain ⟨init, left, isFront, isMaj⟩ :=
        (leftMaj_cases front).resolve_left fun h => leftNonnull h.2
      obtain ⟨right, rest, isBack, isMaj'⟩ :=
        (rightMaj_cases back).resolve_left fun h => nonnull (isRight.trans h.2)
      have apart := (List.pairwise_append.mp beside).2.2 left (by simp [isFront]) right
        (by simp [isBack])
      have stop := (each left (by simp [isFront])).stop_ge
      have otherStop := (each right (by simp [isBack])).stop_ge
      have same : left.maj = right.maj := by rw [← isMaj, ← isMaj', ← isLeft, isRight]
      unfold Arena.Beside at apart
      rw [same] at apart stop
      omega
    rw [if_neg notRight, isLeft, if_pos rfl, respliced.atLeft leftNonnull]
  · by_cases isRight : arena.maj = rightMaj back
    · have rightNonnull : rightMaj back ≠ 0#64 := isRight ▸ nonnull
      rw [if_neg isLeft, if_pos isRight, isRight, respliced.atRight rightNonnull]
    · rw [if_neg isLeft, if_neg isRight]
      refine majorAt_congr fun address inside => respliced.outside address ?_ ?_ ?_
      · exact respliced.apart arena member address
          ((each arena member).reserved_bounds (Or.inl inside))
      · intro leftNonnull
        obtain ⟨init, left, isFront, isMaj⟩ :=
          (leftMaj_cases front).resolve_left fun h => leftNonnull h.2
        rw [isMaj] at isLeft ⊢
        exact apartMaj left (by simp [isFront]) isLeft address inside
      · intro rightNonnull
        obtain ⟨right, rest, isBack, isMaj⟩ :=
          (rightMaj_cases back).resolve_left fun h => rightNonnull h.2
        rw [isMaj] at isRight ⊢
        exact apartMaj right (by simp [isBack]) isRight address inside

/-- An arena stays laid out. -/
theorem stays (respliced : Respliced memory other front page width back forward backward)
    (each : ∀ arena ∈ front ++ back, ArenaAt memory arena)
    (beside : (front ++ back).Pairwise Arena.Beside) (member : arena ∈ front ++ back) :
    ArenaAt other arena := by
  have arenaAt := each arena member
  refine arenaAt.relinkMajor (respliced.old each beside member) ?_
  intro piece isPiece address inside
  have holds := arenaAt.reserved_bounds (Or.inr ⟨piece, isPiece, inside⟩)
  refine respliced.unchanged (respliced.apart arena member address holds) ?_
  intro further isArena inMajor
  by_cases same : arena = further
  · subst same
    rw [arenaAt.inRange_maj] at inMajor
    rw [arenaAt.inRange_min isPiece (by decide)] at inside
    have above := (arenaAt.bounds isPiece).1
    omega
  · have apart := Arena.beside_of_mem beside member isArena same
    exact apart.not_holds holds ((each further isArena).reserved_bounds (Or.inl inMajor))

end Respliced

/-! New pages -/

/-- The pages may follow the arenas: they do not wrap and lie beside all of them. -/
structure PageFor (arenas : List Arena) (page : U64) (count : U32) : Prop where
  nonnull : page ≠ 0#64
  noWrap : page.toNat + count.toNat * 4096 ≤ 2 ^ 64
  beside : ∀ arena ∈ arenas, Arena.Beside ⟨page, count, []⟩ arena

/-- New pages behind the arenas, as yet without a minor. -/
structure Enlarged (heap after : Liballoc) (arenas : List Arena) (page : U64) (count : U32) : Prop where
  atPage : majorAt after.memory page =
    ⟨leftMaj arenas, 0#64, count, count * lPageSize, sizeofMajor.setWidth 32, 0#64⟩
  atLast : leftMaj arenas ≠ 0#64 → majorAt after.memory (leftMaj arenas) =
    { majorAt heap.memory (leftMaj arenas) with next := page }
  outside : ∀ address, ¬InRange page 40 address →
    (leftMaj arenas ≠ 0#64 → ¬InRange (leftMaj arenas) 40 address) →
    after.memory address = heap.memory address
  root : after.memRoot = (arenas.map Arena.maj ++ [page]).headD 0#64
  bestBet : after.bestBet = heap.bestBet
  allocated : after.allocated = heap.allocated + (count * lPageSize).setWidth 64
  inuse : after.inuse = heap.inuse

theorem newPageCount_toNat {size : U32} (small : size.toNat + 80 + 4095 < 2 ^ 32) :
    (newPageCount size).toNat * 4096 < 2 ^ 32 ∧ 16 ≤ (newPageCount size).toNat ∧
      size.toNat + 80 ≤ (newPageCount size).toNat * 4096 := by
  have total : (size + sizeofMajor.setWidth 32 + sizeofMinor.setWidth 32).toNat =
      size.toNat + 80 := by
    unfold sizeofMajor sizeofMinor
    bv_omega
  unfold newPageCount
  dsimp only
  generalize size + sizeofMajor.setWidth 32 + sizeofMinor.setWidth 32 = st at *
  have ceiling : (if st % lPageSize = 0#32 then st / lPageSize else st / lPageSize + 1#32).toNat =
      (st.toNat + 4095) / 4096 := by
    unfold lPageSize
    split_ifs with whole
    · have whole := congrArg BitVec.toNat whole
      rw [BitVec.toNat_umod] at whole
      simp only [BitVec.toNat_udiv, BitVec.toNat_ofNat, Nat.reducePow, Nat.reduceMod] at whole ⊢
      omega
    · have partly : st.toNat % 4096 ≠ 0 := by
        intro isZero
        refine whole (BitVec.eq_of_toNat_eq ?_)
        rw [BitVec.toNat_umod]
        exact isZero
      simp only [BitVec.toNat_add, BitVec.toNat_udiv, BitVec.toNat_ofNat, Nat.reducePow,
        Nat.reduceMod]
      omega
  generalize (if st % lPageSize = 0#32 then st / lPageSize else st / lPageSize + 1#32) = pages at *
  unfold lPageCount
  split_ifs with few
  · rw [BitVec.lt_def] at few
    simp only [BitVec.toNat_ofNat, Nat.reducePow, Nat.reduceMod] at few ⊢
    omega
  · rw [BitVec.lt_def] at few
    simp only [BitVec.toNat_ofNat, Nat.reducePow, Nat.reduceMod] at few
    omega

namespace Enlarged

theorem arenaAt (grown : Enlarged heap after arenas page count) (pageFor : PageFor arenas page count)
    (short : count.toNat * 4096 < 2 ^ 32) (enough : 16 ≤ count.toNat) :
    ArenaAt after.memory ⟨page, count, []⟩ := by
  refine ⟨pageFor.nonnull, pageFor.noWrap, short, ?_, ?_, ?_, ?_, ?_, trivial, ?_⟩
  · rw [grown.atPage]
  · rw [grown.atPage]
  · rw [grown.atPage]
    change (sizeofMajor.setWidth 32 : U32).toNat = 40
    decide
  · rw [grown.atPage]
    rfl
  · change page.toNat + 40 ≤ page.toNat + count.toNat * 4096
    omega
  · intro piece member
    cases member

theorem respliced (grown : Enlarged heap after arenas page count) (pageFor : PageFor arenas page count)
    (enough : 16 ≤ count.toNat) :
    Respliced heap.memory after.memory arenas page 40 [] page 0#64 where
  apart := by
    intro arena member address holds inPage
    rw [List.append_nil] at member
    have noWrap := pageFor.noWrap
    rw [inRange_iff_toNat (by omega)] at inPage
    refine (pageFor.beside arena member).symm.not_holds holds ?_
    unfold Arena.Holds Arena.stop
    dsimp only
    omega
  atLeft := grown.atLast
  atRight nonnull := absurd rfl nonnull
  outside address offPage offLeft _ := grown.outside address offPage offLeft

end Enlarged

theorem pageBytes (short : count.toNat * 4096 < 2 ^ 32) :
    (count * lPageSize).setWidth 64 = BitVec.ofNat 64 (count.toNat * 4096) := by
  unfold lPageSize
  bv_omega

/-- The new pages are the last arena. -/
theorem HeapAt.grow (heapAt : HeapAt heap arenas) (grown : Enlarged heap after arenas page count)
    (pageFor : PageFor arenas page count) (short : count.toNat * 4096 < 2 ^ 32)
    (enough : 16 ≤ count.toNat) : HeapAt after (arenas ++ [⟨page, count, []⟩]) := by
  have respliced := grown.respliced pageFor enough
  have each : ∀ arena ∈ arenas ++ [], ArenaAt heap.memory arena := by simpa using heapAt.each
  have beside : (arenas ++ []).Pairwise Arena.Beside := by simpa using heapAt.beside
  have majs : (arenas ++ [(⟨page, count, []⟩ : Arena)]).map Arena.maj =
      arenas.map Arena.maj ++ [page] := by
    simp
  refine ⟨?_, ?_, ?_, ?_, ?_, ?_, ?_⟩
  · rw [grown.root, majs]
  · have chain := heapAt.chain
    have links : ∀ maj ∈ arenas.map Arena.maj ++ [],
        majorAt after.memory maj =
          { majorAt heap.memory maj with
            next := if maj = leftMaj arenas then page else (majorAt heap.memory maj).next
            prev := if maj = rightMaj [] then 0#64 else (majorAt heap.memory maj).prev } := by
      intro maj member
      rw [List.append_nil] at member
      obtain ⟨arena, isArena, rfl⟩ := List.mem_map.mp member
      exact respliced.old each beside (by simpa using isArena)
    have nonnull : ∀ maj ∈ arenas.map Arena.maj ++ [], maj ≠ 0#64 := by
      simpa using heapAt.nonnull
    have distinct : (arenas.map Arena.maj ++ []).Nodup := by
      simpa using heapAt.nodup
    rw [majs]
    rw [← List.append_nil (arenas.map Arena.maj)] at chain
    refine chain.link distinct nonnull ?_ ?_ ?_ ?_
    · rw [grown.atPage]
      rfl
    · rw [grown.atPage]
      rfl
    · intro maj member
      rw [links maj member]
      rfl
    · intro maj member
      have isNonnull : maj ≠ rightMaj [] := nonnull maj member
      rw [links maj member]
      exact (if_neg isNonnull).trans (if_neg isNonnull).symm
  · intro arena member
    rcases List.mem_append.mp member with old | isNew
    · exact respliced.stays each beside (by simpa using old)
    · rw [List.mem_singleton.mp isNew]
      exact grown.arenaAt pageFor short enough
  · refine List.pairwise_append.mpr ⟨heapAt.beside, List.pairwise_singleton _ _, ?_⟩
    intro arena member further isNew
    rw [List.mem_singleton.mp isNew]
    exact (pageFor.beside arena member).symm
  · rw [grown.bestBet, majs]
    exact heapAt.bestBet.imp_right (List.mem_append_left _)
  · rw [grown.allocated, heapAt.allocated, pageBytes short]
    simp [BitVec.ofNat_add]
  · rw [grown.inuse, heapAt.inuse]
    simp [Arena.inuse]

/-! Pages that are given back -/

namespace HeapAt

theorem separate_majs (heapAt : HeapAt heap arenas) (member : arena ∈ arenas)
    (other : further ∈ arenas) (different : arena.maj ≠ further.maj) :
    Separate arena.maj 40 further.maj 40 := by
  refine (heapAt.each arena member).separate_majs (heapAt.each further other) ?_
  refine Arena.beside_of_mem heapAt.beside member other fun same => ?_
  exact different (congrArg Arena.maj same)

theorem cut_ne (heapAt : HeapAt heap (front ++ arena :: back)) (member : further ∈ front ++ back) :
    arena.maj ≠ further.maj := by
  have distinct := heapAt.nodup
  rw [List.map_append, List.map_cons, List.nodup_middle, ← List.map_append] at distinct
  intro same
  exact (List.nodup_cons.mp distinct).1 (same ▸ List.mem_map_of_mem member)

theorem fewer_nodup (heapAt : HeapAt heap (front ++ arena :: back)) :
    (front.map Arena.maj ++ back.map Arena.maj).Nodup := by
  have distinct := heapAt.nodup
  rw [List.map_append, List.map_cons, List.nodup_middle] at distinct
  exact (List.nodup_cons.mp distinct).2

/-- What the headers say after an arena has been taken off the list. -/
theorem cutOut (heapAt : HeapAt heap (front ++ arena :: back)) :
    CutOut heap.memory (releaseBlock heap arena.maj).memory (leftMaj front) (rightMaj back) ∧
      releaseBlock heap arena.maj =
        { heap with
          memory := (releaseBlock heap arena.maj).memory
          memRoot := if heap.memRoot = arena.maj then rightMaj back else heap.memRoot
          bestBet := if heap.bestBet = arena.maj then 0#64 else heap.bestBet
          allocated := heap.allocated - BitVec.ofNat 64 (arena.pages.toNat * 4096)
          pageCalls := heap.pageCalls ++ [.free arena.maj arena.pages] } := by
  have member : ∀ further ∈ front ++ back, further ∈ front ++ arena :: back := by
    intro further
    simp only [List.mem_append, List.mem_cons]
    tauto
  have self : arena ∈ front ++ arena :: back := by simp
  have ofOthers : ∀ further ∈ front ++ back, Separate arena.maj 40 further.maj 40 :=
    fun further isArena => heapAt.separate_majs self (member further isArena) (heapAt.cut_ne isArena)
  have chain := heapAt.chain
  rw [List.map_append, List.map_cons] at chain
  obtain ⟨isLeft, isRight⟩ := chain.links
  have arenaAt := heapAt.arenaAt
  rw [← pageBytes arenaAt.short, ← arenaAt.size, ← arenaAt.pages]
  refine releaseBlock_cutOut isLeft isRight ?_ ?_ ?_
  · intro nonnull
    obtain ⟨init, left, rfl, isMaj⟩ := (leftMaj_cases front).resolve_left fun h => nonnull h.2
    exact isMaj ▸ ofOthers left (by simp)
  · intro nonnull
    obtain ⟨right, rest, rfl, isMaj⟩ := (rightMaj_cases back).resolve_left fun h => nonnull h.2
    exact isMaj ▸ ofOthers right (by simp)
  · intro leftNonnull rightNonnull
    obtain ⟨init, left, rfl, isMaj⟩ := (leftMaj_cases front).resolve_left fun h => leftNonnull h.2
    obtain ⟨right, rest, rfl, isMaj'⟩ :=
      (rightMaj_cases back).resolve_left fun h => rightNonnull h.2
    have distinct := heapAt.fewer_nodup
    rw [isMaj, isMaj']
    refine heapAt.separate_majs (member left (by simp)) (member right (by simp)) ?_
    exact (List.nodup_append.mp distinct).2.2 left.maj (by simp) right.maj (by simp)

/-- An arena is let go. -/
theorem shrink (heapAt : HeapAt heap (front ++ arena :: back)) (empty : arena.pieces = []) :
    HeapAt (releaseBlock heap arena.maj) (front ++ back) := by
  obtain ⟨cut, rest⟩ := heapAt.cutOut
  have respliced : Respliced heap.memory (releaseBlock heap arena.maj).memory front 0#64 0 back
      (rightMaj back) (leftMaj front) := by
    refine ⟨?_, cut.atLeft, cut.atRight, fun address _ => cut.outside address⟩
    intro further _ address _ inNone
    exact absurd inNone (Nat.not_lt_zero _)
  have each : ∀ further ∈ front ++ back, ArenaAt heap.memory further := fun _ => heapAt.old
  have beside : (front ++ back).Pairwise Arena.Beside :=
    heapAt.beside.sublist (List.Sublist.append_left (List.sublist_cons_self ..) front)
  refine ⟨?_, ?_, ?_, beside, ?_, ?_, ?_⟩
  · rw [rest]
    have root := heapAt.root
    dsimp only
    rcases leftMaj_cases front with ⟨rfl, -⟩ | ⟨init, left, isFront, -⟩
    · have isRoot : heap.memRoot = arena.maj := root
      rw [if_pos isRoot]
      rfl
    · have isRoot : heap.memRoot = ((front ++ back).map Arena.maj).headD 0#64 := by
        rw [root, isFront]
        cases init <;> rfl
      have notCut : heap.memRoot ≠ arena.maj := by
        have member : (front ++ back).headD arena ∈ front ++ back := by
          rw [isFront]
          cases init <;> simp
        have isHead : ((front ++ back).map Arena.maj).headD 0#64 =
            ((front ++ back).headD arena).maj := by
          rw [isFront]
          cases init <;> rfl
        rw [isRoot, isHead]
        exact (heapAt.cut_ne member).symm
      rw [if_neg notCut, isRoot]
  · have chain := heapAt.chain
    rw [List.map_append, List.map_cons] at chain
    have links : ∀ maj ∈ front.map Arena.maj ++ back.map Arena.maj, maj ≠ 0#64 ∧
        majorAt (releaseBlock heap arena.maj).memory maj =
          { majorAt heap.memory maj with
            next := if maj = leftMaj front then rightMaj back else (majorAt heap.memory maj).next
            prev := if maj = rightMaj back then leftMaj front
              else (majorAt heap.memory maj).prev } := by
      intro maj member
      rw [← List.map_append] at member
      obtain ⟨further, isArena, rfl⟩ := List.mem_map.mp member
      exact ⟨(each further isArena).nonnull, respliced.old each beside isArena⟩
    rw [List.map_append]
    refine chain.unlink heapAt.fewer_nodup (fun maj member => (links maj member).1) ?_ ?_
    · intro maj member
      rw [(links maj member).2]
      rfl
    · intro maj member
      rw [(links maj member).2]
      rfl
  · exact fun further member => respliced.stays each beside member
  · rw [rest]
    dsimp only
    split_ifs with isBet
    · exact Or.inl rfl
    · refine heapAt.bestBet.imp_right fun member => ?_
      simp only [List.map_append, List.map_cons, List.mem_append, List.mem_cons] at member ⊢
      tauto
  · rw [rest]
    dsimp only
    rw [heapAt.allocated]
    simp only [List.map_append, List.map_cons, List.sum_append, List.sum_cons, BitVec.ofNat_add]
    generalize BitVec.ofNat 64 (arena.pages.toNat * 4096) = less
    bv_omega
  · rw [rest]
    dsimp only
    rw [heapAt.inuse]
    simp [Arena.inuse, empty]

/-- Only headers of other majors change. -/
theorem shrink_memory (heapAt : HeapAt heap (front ++ arena :: back)) {address : U64}
    (offMajors : ∀ further ∈ front ++ back, ¬InRange further.maj 40 address) :
    (releaseBlock heap arena.maj).memory address = heap.memory address := by
  refine heapAt.cutOut.1.outside address ?_ ?_
  · intro nonnull
    obtain ⟨init, left, rfl, isMaj⟩ := (leftMaj_cases front).resolve_left fun h => nonnull h.2
    exact isMaj ▸ offMajors left (by simp)
  · intro nonnull
    obtain ⟨right, rest, rfl, isMaj⟩ := (rightMaj_cases back).resolve_left fun h => nonnull h.2
    exact isMaj ▸ offMajors right (by simp)

end HeapAt

end Nekonix
