import Nekonix.Mm.Liballoc.Outcomes

/-!
# Requests of 4 GiB and more

The sizes of the headers and the count of pages have 32 bits.  A request that does not fit in them
finds no arena with room, so that it is met from new pages, and there nothing asks for room again.
The product that `kcalloc` asks for has 32 bits too.
-/

namespace Nekonix

open FlatMemory BlockStore Transition

variable {memory : Memory} {supply : List U64} {use : Use} {heap : Liballoc}
  {arenas front back : List Arena} {actions : List (Action U64 U8)}
  {ptr size reqSize page other bytes : U64} {asked : Nat} {arena : Arena}

/-- The pages of a request, whatever its size, are 4 GiB at most. -/
theorem newPageCount_bounds (size : U32) :
    16 ≤ (newPageCount size).toNat ∧ (newPageCount size).toNat * 4096 ≤ 2 ^ 32 := by
  unfold newPageCount
  dsimp only
  generalize size + sizeofMajor.setWidth 32 + sizeofMinor.setWidth 32 = st
  have few : (if st % lPageSize = 0#32 then st / lPageSize else st / lPageSize + 1#32).toNat ≤
      2 ^ 20 := by
    have bound := st.isLt
    unfold lPageSize
    split_ifs
    · simp only [BitVec.toNat_udiv, BitVec.toNat_ofNat, Nat.reducePow, Nat.reduceMod]
      omega
    · simp only [BitVec.toNat_add, BitVec.toNat_udiv, BitVec.toNat_ofNat, Nat.reducePow,
        Nat.reduceMod]
      omega
  generalize (if st % lPageSize = 0#32 then st / lPageSize else st / lPageSize + 1#32) = pages at *
  unfold lPageCount
  split_ifs with less
  · decide
  · rw [BitVec.lt_def] at less
    simp only [BitVec.toNat_ofNat, Nat.reducePow, Nat.reduceMod] at less
    omega

/-- A sum that wraps asks for the least number of pages. -/
theorem newPageCount_wrapped {size : U32} (wrapped : 2 ^ 32 ≤ size.toNat + 80) :
    newPageCount size = lPageCount := by
  have total : (size + sizeofMajor.setWidth 32 + sizeofMinor.setWidth 32).toNat < 80 := by
    unfold sizeofMajor sizeofMinor
    bv_omega
  unfold newPageCount
  dsimp only
  generalize size + sizeofMajor.setWidth 32 + sizeofMinor.setWidth 32 = st at *
  have noPage : st / lPageSize = 0#32 := by
    apply BitVec.eq_of_toNat_eq
    rw [BitVec.toNat_udiv]
    exact Nat.div_eq_of_lt (Nat.lt_trans total (by decide))
  rw [noPage]
  refine if_pos ?_
  split_ifs <;> decide

section Huge

variable (huge : 2 ^ 32 ≤ bytes.toNat + 40) (noWrap : bytes.toNat + 40 < 2 ^ 64)
include huge noWrap

/-- No arena has room. -/
theorem majorFree_lt (heap : Liballoc) (maj : U64) : majorFree heap maj < bytes + sizeofMinor := by
  have need : (bytes + sizeofMinor).toNat = bytes.toNat + 40 := by
    unfold sizeofMinor
    bv_omega
  have bound := (heap.read majorSize maj - heap.read majorUsage maj).isLt
  rw [BitVec.lt_def, need]
  unfold majorFree
  rw [BitVec.toNat_setWidth, Nat.mod_eq_of_lt (by omega)]
  omega

/-- The search passes all arenas and takes the new pages, for what they are. -/
theorem mallocSearch_huge {fuel : Nat} {bestSize : U64} (long : back.length < fuel)
    (heapAt : HeapAt heap (front ++ arena :: back)) (given : heap.supply.headD 0#64 = page)
    (pageFor : PageFor (front ++ arena :: back) page (newPageCount (bytes.setWidth 32))) :
    ∃ ptr after, mallocSearch bytes reqSize fuel heap false bestSize arena.maj =
        some (ptr, after) ∧
      ptr = userPtr (page + sizeofMajor) ∧
      after.pageCalls = heap.pageCalls ++ [.alloc (newPageCount (bytes.setWidth 32)) page] := by
  induction back generalizing front arena heap bestSize fuel with
  | nil =>
      obtain ⟨fuel, rfl⟩ := Nat.exists_eq_succ_of_ne_zero (Nat.ne_of_gt long)
      obtain ⟨bet, _, onFresh, isBet, isFresh, isSearch⟩ := mallocSearch_little reqSize heapAt
        (by simp : arena ∈ front ++ [arena]) fuel false bestSize (majorFree_lt huge noWrap _ arena.maj)
      have betAt := heapAt.rebet isBet
      obtain ⟨after, isNext, grown, -, pages⟩ :=
        nextBlock_fresh rfl betAt given pageFor (newPageCount_bounds _).1
      have empty : after.read majorFirst page = 0#64 := congrArg Major.first grown.atPage
      have inBlock : mallocInBlock after page bytes reqSize =
          some (some (placeFirst after page bytes reqSize)) := if_pos empty
      rw [isSearch, isNext]
      refine ⟨(placeFirst after page bytes reqSize).1, (placeFirst after page bytes reqSize).2,
        isFresh _ _ _ inBlock, ?_, ?_⟩
      · simp only [placeFirst, finishMinor, alignPtr_eq]
      · simp only [placeFirst, finishMinor, alignPtr_eq]
        exact congrArg Prod.snd pages
  | cons next rest inductionHypothesis =>
      obtain ⟨fuel, rfl⟩ := Nat.exists_eq_succ_of_ne_zero (Nat.ne_of_gt (Nat.zero_lt_of_lt long))
      obtain ⟨bet, _, onFresh, isBet, -, isSearch⟩ := mallocSearch_little reqSize heapAt
        (by simp : arena ∈ front ++ arena :: next :: rest) fuel false bestSize
        (majorFree_lt huge noWrap _ arena.maj)
      have betAt := heapAt.rebet isBet
      rw [isSearch, nextBlock_visit betAt]
      rw [List.append_cons] at betAt pageFor
      exact inductionHypothesis (Nat.lt_of_succ_lt_succ long) betAt given pageFor

theorem mallocStart_huge (reqSize : U64) (heapAt : HeapAt heap arenas) (nonempty : arenas ≠ [])
    (given : heap.supply.headD 0#64 = page)
    (pageFor : PageFor arenas page (newPageCount (bytes.setWidth 32))) :
    ∃ after, mallocStart heap bytes reqSize = some (userPtr (page + sizeofMajor), after) ∧
      after.pageCalls = heap.pageCalls ++ [.alloc (newPageCount (bytes.setWidth 32)) page] := by
  have few := heapAt.length_lt
  obtain ⟨root, rest, rfl⟩ := List.exists_cons_of_ne_nil nonempty
  rw [List.length_cons] at few
  have longEnough : rest.length < 2 ^ 65 := by omega
  have isRoot : heap.memRoot = root.maj := heapAt.root
  have whole : root :: rest = [] ++ root :: rest := rfl
  rw [whole] at heapAt pageFor
  have notStarted : ¬(heap.bestBet ≠ 0#64 ∧
      (if heap.bestBet ≠ 0#64 then majorFree heap heap.bestBet else 0#64) >
        bytes + sizeofMinor) := by
    rintro ⟨isBet, more⟩
    rw [if_pos isBet] at more
    have less := majorFree_lt huge noWrap heap heap.bestBet
    rw [gt_iff_lt, BitVec.lt_def] at more
    rw [BitVec.lt_def] at less
    omega
  unfold mallocStart
  dsimp only
  rw [if_neg notStarted, isRoot]
  obtain ⟨ptr, after, isResult, rfl, isCalls⟩ :=
    mallocSearch_huge huge noWrap longEnough heapAt given pageFor
  exact ⟨after, isResult, isCalls⟩

end Huge

/-- In every run with a block out, `kmalloc` meets a request of 4 GiB or more from the pages that it
gets for the request, and the block goes beyond the end of them. -/
theorem heap_huge_overruns (run : Run UseStep (.boot memory supply) actions use)
    (held : use.blocks other = some asked) (huge : 2 ^ 32 ≤ size.toNat + 72)
    (noWrap : size.toNat + 72 < 2 ^ 64) (given : use.heap.supply.headD 0#64 = page)
    (nonnull : page ≠ 0#64) (fresh : FreshPages use.heap size) :
    ∃ ptr after, kmalloc use.heap size = some (ptr, after) ∧
      after.pageCalls = use.heap.pageCalls ++ [.alloc (pagesFor size) page] ∧
      page.toNat < ptr.toNat ∧
      page.toNat + (pagesFor size).toNat * 4096 < ptr.toNat + size.toNat := by
  obtain ⟨arenas, useAt⟩ := useAt_of_run run
  obtain ⟨piece, isPiece, -, -⟩ := useAt.block held
  have isBytes : (size + (alignment + alignInfo)).toNat = size.toNat + 32 := by
    unfold alignment alignInfo
    bv_omega
  have pageFor : PageFor arenas page (pagesFor size) := by
    subst given
    exact useAt.accounted.pageFor fresh nonnull
  have nonempty : arenas ≠ [] := by
    rintro rfl
    cases isPiece
  have rooted : use.heap.memRoot ≠ 0#64 := by
    obtain ⟨root, rest, rfl⟩ := List.exists_cons_of_ne_nil nonempty
    have isRoot : use.heap.memRoot = root.maj := useAt.heapAt.root
    rw [isRoot]
    exact (useAt.heapAt.each root List.mem_cons_self).nonnull
  obtain ⟨after, isStart, isCalls⟩ := mallocStart_huge (by omega) (by omega) size
    useAt.heapAt.lock nonempty given pageFor
  refine ⟨userPtr (page + sizeofMajor), after.unlock, ?_, isCalls, ?_⟩
  · have notZero : size + (alignment + alignInfo) ≠ 0#64 := by
      intro isZero
      rw [isZero] at isBytes
      have zero : (0#64 : U64).toNat = 0 := rfl
      omega
    unfold kmalloc Liballoc.lock
    rw [useAt.unlocked]
    refine (if_neg notZero).trans ?_
    unfold mallocLocked
    dsimp only
    rw [if_neg rooted, if_neg rooted, isStart]
    rfl
  · obtain ⟨enough, most⟩ := newPageCount_bounds ((size + (alignment + alignInfo)).setWidth 32)
    obtain ⟨low, high, -⟩ := alignDiff_toNat (page + sizeofMajor)
    have below := pageFor.noWrap
    have isPtr : (userPtr (page + sizeofMajor)).toNat =
        page.toNat + 80 + (alignDiff (page + sizeofMajor)).toNat := by
      unfold pagesFor at below
      unfold userPtr sizeofMajor sizeofMinor at *
      bv_omega
    refine ⟨by omega, ?_⟩
    rw [isPtr]
    by_cases short : size.toNat + 32 < 2 ^ 32
    · have wrapped : pagesFor size = lPageCount := by
        refine newPageCount_wrapped ?_
        rw [BitVec.toNat_setWidth, isBytes, Nat.mod_eq_of_lt short]
        omega
      rw [wrapped]
      change page.toNat + 16 * 4096 < _
      omega
    · unfold pagesFor
      omega

theorem heap_huge_overruns_oneBlock :
    ∃ ptr after, kmalloc (oneBlock [0x40000000#64]).heap 0x100000000#64 = some (ptr, after) ∧
      0x40000000 + 16 * 4096 < ptr.toNat + 0x100000000 := by
  have isPtr : (kmalloc (bootUse [0x40000000#64]).heap 24#64).map Prod.fst = some 0x10060#64 := by
    decide +kernel
  have run := oneBlock_run isPtr
  have given : (oneBlock [0x40000000#64]).heap.supply.headD 0#64 = 0x40000000#64 := by
    decide +kernel
  have isHeld : heldPages (oneBlock [0x40000000#64]).heap.pageCalls = [(0x10000#64, 16#32)] := by
    decide +kernel
  have fresh : FreshPages (oneBlock [0x40000000#64]).heap 0x100000000#64 := by
    have isCount : pagesFor 0x100000000#64 = 16#32 := by decide +kernel
    intro _
    rw [given, isHeld, isCount]
    simp
  have held : (oneBlock [0x40000000#64]).blocks 0x10060#64 = some 24 := rfl
  obtain ⟨ptr, after, call, -, -, beyond⟩ :=
    heap_huge_overruns run held (by decide) (by decide) given (by decide) fresh
  exact ⟨ptr, after, call, beyond⟩

/-! A product that wraps -/

theorem kcalloc_wraps (nobj size : U64) :
    kcalloc heap nobj size =
      kcalloc heap 1#64 (BitVec.ofNat 64 (nobj.toNat * size.toNat % 2 ^ 32)) := by
  have same : ((nobj * size).setWidth 32 : U32) =
      (1#64 * BitVec.ofNat 64 (nobj.toNat * size.toNat % 2 ^ 32)).setWidth 32 := by
    apply BitVec.eq_of_toNat_eq
    rw [BitVec.one_mul, BitVec.toNat_setWidth, BitVec.toNat_setWidth, BitVec.toNat_mul,
      BitVec.toNat_ofNat]
    omega
  unfold kcalloc
  rw [same]

end Nekonix
