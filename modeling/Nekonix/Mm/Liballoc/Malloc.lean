import Nekonix.Mm.Liballoc.Search

/-!
# What `kmalloc` returns

A request that some arena has a gap for is met in a gap.  Any other one asks for pages, once: it
is met in them, or refused with NULL if there are none.
-/

namespace Nekonix

open FlatMemory Packing

variable {heap after : Liballoc} {reqSize page address : U64} {piece : Piece} {arena : Arena}
  {arenas further front back : List Arena} {result : U64 × Liballoc}

/-! The whole search -/

/-- The pages that a request asks for, if no arena has a gap. -/
def pagesFor (reqSize : U64) : U32 := newPageCount ((reqSize + (alignment + alignInfo)).setWidth 32)

/-- A gap for the request. -/
def Arena.Takes (arena : Arena) (reqSize : U64) : Prop := arena.HasGap (reqSize.toNat + 72)

/-- If the request asks for pages and is given some, they may follow the arenas. -/
def PagesSupplied (heap : Liballoc) (arenas : List Arena) (reqSize : U64) : Prop :=
  (∀ arena ∈ arenas, ¬arena.Takes reqSize) → heap.supply.headD 0#64 ≠ 0#64 →
    PageFor arenas (heap.supply.headD 0#64) (pagesFor reqSize)

/-- How a request ends. -/
inductive Searched (heap : Liballoc) (arenas : List Arena) (reqSize : U64) :
    U64 × Liballoc → Prop
  | placed {result : U64 × Liballoc} {piece : Piece} {further : List Arena}
      (takes : ∃ arena ∈ arenas, arena.Takes reqSize) (spans : spans further = spans arenas)
      (pages : result.2.pages = heap.pages) (occupied : Occupied arenas → Occupied further)
      (granted : MinorGranted heap arenas reqSize result piece further) :
      Searched heap arenas reqSize result
  | grown {result : U64 × Liballoc} {piece : Piece} {further : List Arena} {page : U64}
      (full : ∀ arena ∈ arenas, ¬arena.Takes reqSize) (given : heap.supply.headD 0#64 = page)
      (pageFor : PageFor arenas page (pagesFor reqSize))
      (spans : spans further = spans arenas ++ [(page, pagesFor reqSize)])
      (pages : result.2.pages =
        (heap.supply.tail, heap.pageCalls ++ [.alloc (pagesFor reqSize) page]))
      (occupied : Occupied arenas → Occupied further)
      (granted : MinorGranted heap arenas reqSize result piece further) :
      Searched heap arenas reqSize result
  | refused {after : Liballoc} (full : ∀ arena ∈ arenas, ¬arena.Takes reqSize)
      (given : heap.supply.headD 0#64 = 0#64) (heapAt : HeapAt after arenas)
      (memory : after.memory = heap.memory)
      (pages : after.pages =
        (heap.supply.tail, heap.pageCalls ++ [.alloc (pagesFor reqSize) 0#64]))
      (books : after.books = (heap.locked, heap.warningCount + 1#64, heap.errorCount,
        heap.possibleOverruns)) :
      Searched heap arenas reqSize (0#64, after)

theorem MinorGranted.base {earlier : Liballoc} {fewer : List Arena}
    (granted : MinorGranted heap arenas reqSize result piece further)
    (sameLive : Nekonix.live fewer = Nekonix.live arenas)
    (memory : ∀ address, ¬Kept further address → heap.memory address = earlier.memory address)
    (books : heap.books = earlier.books) : MinorGranted earlier fewer reqSize result piece further where
  ptr := granted.ptr
  heapAt := granted.heapAt
  live := sameLive ▸ granted.live
  size := granted.size
  reqSize := granted.reqSize
  kept address notKept := (granted.kept address notKept).trans (memory address notKept)
  books := granted.books.trans books

theorem kept_of_span {maj : U64} {count : U32} (span : (maj, count) ∈ spans arenas)
    (inMajor : InRange maj 40 address) : Kept arenas address := by
  obtain ⟨arena, isArena, isSpan⟩ := List.mem_map.mp span
  obtain ⟨rfl, rfl⟩ := Prod.mk.inj isSpan
  exact ⟨arena, isArena, Or.inl inMajor⟩

/-- The best bet does not matter to how a request ends. -/
theorem Searched.rebet {bet : U64}
    (searched : Searched { heap with bestBet := bet } arenas reqSize result) :
    Searched heap arenas reqSize result := by
  cases searched with
  | placed takes spans pages occupied granted =>
      exact .placed takes spans pages occupied (granted.base rfl (fun _ _ => rfl) rfl)
  | grown full given pageFor spans pages occupied granted =>
      exact .grown full given pageFor spans pages occupied (granted.base rfl (fun _ _ => rfl) rfl)
  | refused full given heapAt memory pages books =>
      exact .refused full given heapAt memory pages books

theorem pagesFor_toNat (short : reqSize.toNat + 112 + 4095 < 2 ^ 32) :
    (pagesFor reqSize).toNat * 4096 < 2 ^ 32 ∧ 16 ≤ (pagesFor reqSize).toNat ∧
      reqSize.toNat + 112 ≤ (pagesFor reqSize).toNat * 4096 := by
  have isBytes : ((reqSize + (alignment + alignInfo)).setWidth 32 : U32).toNat =
      reqSize.toNat + 32 := by
    rw [BitVec.toNat_setWidth, bytes_toNat (by omega), Nat.mod_eq_of_lt (by omega)]
  have small : ((reqSize + (alignment + alignInfo)).setWidth 32 : U32).toNat + 80 + 4095 < 2 ^ 32 := by
    omega
  obtain ⟨shortPages, enough, room⟩ := newPageCount_toNat small
  refine ⟨shortPages, enough, ?_⟩
  unfold pagesFor
  omega

theorem HeapAt.length_lt (heapAt : HeapAt heap arenas) : arenas.length < 2 ^ 64 := by
  rw [← List.length_map Arena.maj]
  exact length_lt_of_nodup heapAt.nodup heapAt.nonnull

theorem not_takes_concat (passed : ∀ earlier ∈ front, ¬earlier.Takes reqSize)
    (full : ¬arena.Takes reqSize) : ∀ earlier ∈ front ++ [arena], ¬earlier.Takes reqSize := by
  intro earlier isEarlier
  rcases List.mem_append.mp isEarlier with inFront | here
  · exact passed earlier inFront
  · exact List.mem_singleton.mp here ▸ full

section Search

variable (short : reqSize.toNat + 112 + 4095 < 2 ^ 32)
include short

/-- The new pages have room for the request that asks for them. -/
theorem pagesFor_room (page : U64) :
    Arena.low ⟨page, pagesFor reqSize, []⟩ + (reqSize.toNat + 72) ≤
      Arena.stop ⟨page, pagesFor reqSize, []⟩ := by
  obtain ⟨-, -, room⟩ := pagesFor_toNat short
  unfold Arena.low Arena.stop
  dsimp only
  omega

theorem takes_pagesFor (page : U64) : Arena.Takes ⟨page, pagesFor reqSize, []⟩ reqSize :=
  hasGap_nil.mpr (pagesFor_room short page)

theorem takes_iff : arena.Takes reqSize ↔
    arena.HasGap ((reqSize + (alignment + alignInfo)).toNat + 40) := by
  rw [bytes_toNat (by omega)]
  rfl

theorem HeapAt.placed (heapAt : HeapAt heap (front ++ arena :: back))
    (placed : PlacedIn heap arena (reqSize + (alignment + alignInfo)) reqSize result) :
    Searched heap (front ++ arena :: back) reqSize result := by
  have takes : arena.Takes reqSize := by
    obtain ⟨before, new, behind, gap, -⟩ := placed
    exact (takes_iff short).mpr gap.hasGap
  obtain ⟨piece, changed, sameMaj, samePages, nonempty, pages, granted⟩ :=
    heapAt.place (by omega) placed
  refine .placed ⟨arena, by simp, takes⟩ ?_ pages (fun occupied => occupied.replace nonempty) granted
  simp [spans, sameMaj, samePages]

/-- The request is met from new pages. -/
theorem HeapAt.placedFresh {bet : U64} (heapAt : HeapAt heap arenas)
    (full : ∀ arena ∈ arenas, ¬arena.Takes reqSize)
    (given : heap.supply.headD 0#64 = page) (pageFor : PageFor arenas page (pagesFor reqSize))
    (grown : Enlarged heap after arenas page (pagesFor reqSize)) (books : after.books = heap.books)
    (pages : after.pages = (heap.supply.tail, heap.pageCalls ++ [.alloc (pagesFor reqSize) page]))
    (isBet : bet = 0#64 ∨ bet ∈ (arenas ++ [(⟨page, pagesFor reqSize, []⟩ : Arena)]).map Arena.maj)
    (placed : PlacedIn { after with bestBet := bet } ⟨page, pagesFor reqSize, []⟩
      (reqSize + (alignment + alignInfo)) reqSize result) : Searched heap arenas reqSize result := by
  obtain ⟨shortPages, enough, -⟩ := pagesFor_toNat short
  have grownAt := (heapAt.grow grown pageFor shortPages enough).rebet isBet
  obtain ⟨piece, changed, sameMaj, samePages, nonempty, keptPages, granted⟩ :=
    grownAt.place (by omega) placed
  refine .grown full given pageFor ?_ (keptPages.trans pages) ?_ (granted.base ?_ ?_ books)
  · simp [spans, sameMaj, samePages]
  · intro occupied arena member
    rcases List.mem_append.mp member with old | isNew
    · exact occupied arena old
    · exact List.mem_singleton.mp isNew ▸ nonempty
  · simp [live]
  · intro address notKept
    have offMajors : ∀ maj ∈ arenas.map Arena.maj ++ [page], ¬InRange maj 40 address := by
      intro maj member inMajor
      have further : maj ∈ (arenas ++ [changed]).map Arena.maj := by simpa [sameMaj] using member
      obtain ⟨arena, isArena, rfl⟩ := List.mem_map.mp further
      exact notKept ⟨arena, isArena, Or.inl inMajor⟩
    refine grown.outside address (offMajors page (by simp)) fun nonnull => ?_
    obtain ⟨init, last, rfl, isLast⟩ := (leftMaj_cases arenas).resolve_left fun h => nonnull h.2
    exact isLast ▸ offMajors last.maj (by simp)

/-- The search ends at an arena that takes the request. -/
theorem mallocSearch_takes {fuel : Nat} {startedBet : Bool} {bestSize : U64}
    (heapAt : HeapAt heap (front ++ arena :: back)) (takes : arena.Takes reqSize) :
    ∃ result, mallocSearch (reqSize + (alignment + alignInfo)) reqSize (fuel + 1) heap startedBet
        bestSize arena.maj = some result ∧ Searched heap (front ++ arena :: back) reqSize result := by
  have isBytes : (reqSize + (alignment + alignInfo)).toNat = reqSize.toNat + 32 :=
    bytes_toNat (by omega)
  have member : arena ∈ front ++ arena :: back := by simp
  obtain ⟨bet, result, isBet, isResult, placed⟩ := mallocSearch_gap reqSize heapAt member (by omega)
    (by omega) fuel startedBet bestSize ((takes_iff short).mp takes)
  exact ⟨result, isResult, ((heapAt.rebet isBet).placed short placed).rebet⟩

/-- A place in new pages, as either branch of the search finds it. -/
theorem fresh_placed {fuel : Nat} {bestSize : U64} {onFresh : Liballoc → U64 → Option (U64 × Liballoc)}
    (afterAt : HeapAt after (arenas ++ [⟨page, pagesFor reqSize, []⟩]))
    (isFresh : onFresh = (fun heap page => mallocSearch (reqSize + (alignment + alignInfo)) reqSize
        (fuel + 1) heap false bestSize page) ∨
      ∀ heap page placed, mallocInBlock heap page (reqSize + (alignment + alignInfo)) reqSize =
        some (some placed) → onFresh heap page = some placed) :
    ∃ bet result, (bet = 0#64 ∨ bet ∈ (arenas ++ [(⟨page, pagesFor reqSize, []⟩ : Arena)]).map Arena.maj) ∧
      onFresh after page = some result ∧
      PlacedIn { after with bestBet := bet } ⟨page, pagesFor reqSize, []⟩
        (reqSize + (alignment + alignInfo)) reqSize result := by
  have isBytes : (reqSize + (alignment + alignInfo)).toNat = reqSize.toNat + 32 :=
    bytes_toNat (by omega)
  have hasGap := (takes_iff short).mp (takes_pagesFor short page)
  have room := pagesFor_room short page
  generalize reqSize + (alignment + alignInfo) = bytes at *
  have shortBytes : bytes.toNat + 40 < 2 ^ 32 := by omega
  have enough : 32 ≤ bytes.toNat := by omega
  have isNew : (⟨page, pagesFor reqSize, []⟩ : Arena) ∈ arenas ++ [⟨page, pagesFor reqSize, []⟩] :=
    List.mem_concat_self
  have free : Arena.low ⟨page, pagesFor reqSize, []⟩ +
      used Piece.start Piece.stop ([] : List Piece) + (bytes.toNat + 40) ≤
        Arena.stop ⟨page, pagesFor reqSize, []⟩ := by
    rw [isBytes]
    exact room
  rcases isFresh with rfl | placedFresh
  · exact mallocSearch_gap reqSize afterAt isNew shortBytes enough fuel false bestSize hasGap
  · have spec := mallocInBlock_spec reqSize (afterAt.each _ isNew) shortBytes enough free
    obtain ⟨result, isResult, placed⟩ := spec.resolve_right fun none => none.2 hasGap
    exact ⟨after.bestBet, result, afterAt.bestBet, placedFresh after page result isResult, placed⟩

/-- Behind the last arena, where none has a gap. -/
theorem HeapAt.atLast {fuel : Nat} {bestSize : U64}
    {onFresh : Liballoc → U64 → Option (U64 × Liballoc)}
    {onVisit : Bool → U64 → Option (U64 × Liballoc)}
    (heapAt : HeapAt heap (front ++ [arena]))
    (full : ∀ earlier ∈ front ++ [arena], ¬earlier.Takes reqSize)
    (supplied : PagesSupplied heap (front ++ [arena]) reqSize)
    (isFresh : onFresh = (fun heap page => mallocSearch (reqSize + (alignment + alignInfo)) reqSize
        (fuel + 1) heap false bestSize page) ∨
      ∀ heap page placed, mallocInBlock heap page (reqSize + (alignment + alignInfo)) reqSize =
        some (some placed) → onFresh heap page = some placed) :
    ∃ result,
      (match nextBlock heap false arena.maj (reqSize + (alignment + alignInfo)) with
        | .visit startedBet maj => onVisit startedBet maj
        | .fresh page heap => onFresh heap page
        | .refused heap => some (0#64, heap)) = some result ∧
      Searched heap (front ++ [arena]) reqSize result := by
  by_cases given : heap.supply.headD 0#64 = 0#64
  · rw [nextBlock_refused heapAt given]
    have refusedAt : HeapAt
        { heap with
          supply := heap.supply.tail
          pageCalls := heap.pageCalls ++ [.alloc (pagesFor reqSize) 0#64]
          warningCount := heap.warningCount + 1#64 } (front ++ [arena]) :=
      ⟨heapAt.root, heapAt.chain, heapAt.each, heapAt.beside, heapAt.bestBet, heapAt.allocated,
        heapAt.inuse⟩
    exact ⟨_, rfl, .refused full given refusedAt rfl rfl rfl⟩
  · obtain ⟨shortPages, enough, -⟩ := pagesFor_toNat short
    obtain ⟨after, isNext, grown, books, pages⟩ :=
      nextBlock_fresh rfl heapAt rfl (supplied full given) enough
    have afterAt := heapAt.grow grown (supplied full given) shortPages enough
    obtain ⟨bet, result, isBet, isResult, placed⟩ := fresh_placed short afterAt isFresh
    rw [isNext]
    exact ⟨result, isResult,
      heapAt.placedFresh short full rfl (supplied full given) grown books pages isBet placed⟩

/-- The search from an arena to the last one, where no arena in front has a gap. -/
theorem mallocSearch_onward {fuel : Nat} {bestSize : U64} (long : back.length + 1 < fuel)
    (heapAt : HeapAt heap (front ++ arena :: back))
    (passed : ∀ earlier ∈ front, ¬earlier.Takes reqSize)
    (supplied : PagesSupplied heap (front ++ arena :: back) reqSize) :
    ∃ result, mallocSearch (reqSize + (alignment + alignInfo)) reqSize fuel heap false bestSize
        arena.maj = some result ∧ Searched heap (front ++ arena :: back) reqSize result := by
  have isBytes : (reqSize + (alignment + alignInfo)).toNat = reqSize.toNat + 32 :=
    bytes_toNat (by omega)
  have shortBytes : (reqSize + (alignment + alignInfo)).toNat + 40 < 2 ^ 32 := by omega
  have enough : 32 ≤ (reqSize + (alignment + alignInfo)).toNat := by omega
  induction back generalizing front arena heap bestSize fuel with
  | nil =>
      obtain ⟨fuel, rfl⟩ : ∃ rest, fuel = rest + 1 + 1 :=
        ⟨fuel - 2, by rw [List.length_nil] at long; omega⟩
      have member : arena ∈ front ++ [arena] := by simp
      by_cases takes : arena.Takes reqSize
      · exact mallocSearch_takes short heapAt takes
      · obtain ⟨bet, bestSize', onFresh, isBet, isFresh, isSearch⟩ := mallocSearch_full reqSize heapAt
          member shortBytes enough (fuel + 1) false bestSize (mt (takes_iff short).mpr takes)
        have betAt := heapAt.rebet isBet
        have full := not_takes_concat passed takes
        obtain ⟨result, isResult, searched⟩ := betAt.atLast short full supplied isFresh
        exact ⟨result, isSearch.trans isResult, searched.rebet⟩
  | cons next rest inductionHypothesis =>
      obtain ⟨fuel, rfl⟩ := Nat.exists_eq_succ_of_ne_zero (Nat.ne_of_gt (Nat.zero_lt_of_lt long))
      have member : arena ∈ front ++ arena :: next :: rest := by simp
      by_cases takes : arena.Takes reqSize
      · exact mallocSearch_takes short heapAt takes
      · obtain ⟨bet, bestSize', onFresh, isBet, -, isSearch⟩ := mallocSearch_full reqSize heapAt member
          shortBytes enough fuel false bestSize (mt (takes_iff short).mpr takes)
        have betAt := heapAt.rebet isBet
        rw [isSearch, nextBlock_visit betAt]
        rw [List.append_cons] at betAt supplied ⊢
        have passedAll := not_takes_concat passed takes
        obtain ⟨result, isResult, searched⟩ :=
          inductionHypothesis (Nat.lt_of_succ_lt_succ long) betAt passedAll supplied
        exact ⟨result, isResult, searched.rebet⟩

/-- The search from the best bet: to the last arena, and then from the first one on. -/
theorem mallocSearch_started {fuel : Nat} {bestSize : U64}
    (long : back.length + 1 + (front ++ arena :: back).length < fuel)
    (heapAt : HeapAt heap (front ++ arena :: back))
    (supplied : PagesSupplied heap (front ++ arena :: back) reqSize) :
    ∃ result, mallocSearch (reqSize + (alignment + alignInfo)) reqSize fuel heap true bestSize
        arena.maj = some result ∧ Searched heap (front ++ arena :: back) reqSize result := by
  have isBytes : (reqSize + (alignment + alignInfo)).toNat = reqSize.toNat + 32 :=
    bytes_toNat (by omega)
  have shortBytes : (reqSize + (alignment + alignInfo)).toNat + 40 < 2 ^ 32 := by omega
  have enough : 32 ≤ (reqSize + (alignment + alignInfo)).toNat := by omega
  obtain ⟨fuel, rfl⟩ := Nat.exists_eq_succ_of_ne_zero (Nat.ne_of_gt (Nat.zero_lt_of_lt long))
  have member : arena ∈ front ++ arena :: back := by simp
  induction back generalizing front arena heap bestSize fuel with
  | nil =>
      by_cases takes : arena.Takes reqSize
      · exact mallocSearch_takes short heapAt takes
      · obtain ⟨bet, bestSize', onFresh, isBet, -, isSearch⟩ := mallocSearch_full reqSize heapAt
          member shortBytes enough fuel true bestSize (mt (takes_iff short).mpr takes)
        have betAt := heapAt.rebet isBet
        rw [isSearch, nextBlock_restart betAt]
        cases isArenas : front ++ [arena] with
        | nil => simp at isArenas
        | cons root rest =>
            rw [isArenas] at betAt supplied long
            have whole : root :: rest = [] ++ root :: rest := rfl
            rw [whole] at betAt supplied ⊢
            have longEnough : rest.length + 1 < fuel := by
              rw [List.length_cons, List.length_nil] at long
              omega
            obtain ⟨result, isResult, searched⟩ := mallocSearch_onward short longEnough betAt
              (fun _ inNone => absurd inNone List.not_mem_nil) supplied
            have isRoot : heap.memRoot = root.maj := betAt.root
            refine ⟨result, ?_, searched.rebet⟩
            exact (congrArg (mallocSearch _ _ fuel _ false bestSize') isRoot).trans isResult
  | cons next rest inductionHypothesis =>
      by_cases takes : arena.Takes reqSize
      · exact mallocSearch_takes short heapAt takes
      · obtain ⟨bet, bestSize', onFresh, isBet, -, isSearch⟩ := mallocSearch_full reqSize heapAt
          member shortBytes enough fuel true bestSize (mt (takes_iff short).mpr takes)
        have betAt := heapAt.rebet isBet
        rw [isSearch, nextBlock_visit betAt]
        rw [List.append_cons] at betAt supplied long ⊢
        rw [List.length_cons] at long
        obtain ⟨fuel, rfl⟩ := Nat.exists_eq_succ_of_ne_zero (show fuel ≠ 0 by omega)
        have shorter : rest.length + 1 + (front ++ [arena] ++ next :: rest).length < fuel + 1 := by
          omega
        obtain ⟨result, isResult, searched⟩ :=
          inductionHypothesis betAt supplied fuel shorter (by simp)
        exact ⟨result, isResult, searched.rebet⟩

/-- The search ends, and as it should. -/
theorem mallocStart_spec (heapAt : HeapAt heap arenas) (nonempty : arenas ≠ [])
    (supplied : PagesSupplied heap arenas reqSize) :
    ∃ result, mallocStart heap (reqSize + (alignment + alignInfo)) reqSize = some result ∧
      Searched heap arenas reqSize result := by
  have few := heapAt.length_lt
  have fromRoot : ∀ bestSize, ∃ result, mallocSearch (reqSize + (alignment + alignInfo)) reqSize
      (2 ^ 65) heap false bestSize heap.memRoot = some result ∧
        Searched heap arenas reqSize result := by
    intro bestSize
    obtain ⟨root, rest, rfl⟩ := List.exists_cons_of_ne_nil nonempty
    rw [List.length_cons] at few
    have isRoot : heap.memRoot = root.maj := heapAt.root
    have whole : root :: rest = [] ++ root :: rest := rfl
    rw [whole] at heapAt supplied ⊢
    rw [isRoot]
    exact mallocSearch_onward short (by omega) heapAt
      (fun _ inNone => absurd inNone List.not_mem_nil) supplied
  unfold mallocStart
  dsimp only
  by_cases started : heap.bestBet ≠ 0#64 ∧
      (if heap.bestBet ≠ 0#64 then majorFree heap heap.bestBet else 0#64) >
        reqSize + (alignment + alignInfo) + sizeofMinor
  · rw [if_pos started]
    obtain ⟨arena, isArena, isBet⟩ :=
      List.mem_map.mp (heapAt.bestBet.resolve_left started.1)
    obtain ⟨front, back, rfl⟩ := List.append_of_mem isArena
    rw [← isBet]
    refine mallocSearch_started short ?_ heapAt supplied
    rw [List.length_append, List.length_cons] at few ⊢
    omega
  · rw [if_neg started]
    exact fromRoot _

end Search

/-! The lock and the first pages -/

theorem MinorGranted.unlock {ptr : U64} (unlocked : heap.locked = false)
    (granted : MinorGranted { heap with locked := true } arenas reqSize (ptr, after) piece further) :
    MinorGranted heap arenas reqSize (ptr, after.unlock) piece further where
  ptr := granted.ptr
  heapAt := granted.heapAt.unlock
  live := granted.live
  size := granted.size
  reqSize := granted.reqSize
  kept := granted.kept
  books := books_unlock unlocked granted.books

theorem Searched.unlock {ptr : U64} (unlocked : heap.locked = false)
    (searched : Searched { heap with locked := true } arenas reqSize (ptr, after)) :
    Searched heap arenas reqSize (ptr, after.unlock) := by
  cases searched with
  | placed takes spans pages occupied granted =>
      exact .placed takes spans pages occupied (granted.unlock unlocked)
  | grown full given pageFor spans pages occupied granted =>
      exact .grown full given pageFor spans pages occupied (granted.unlock unlocked)
  | refused full given heapAt memory pages books =>
      exact .refused full given heapAt.unlock memory pages (books_unlock unlocked books)

/-- The first pages are the first arena. -/
theorem firstPages (given : heap.supply.headD 0#64 = page) (pageFor : PageFor [] page (pagesFor reqSize)) :
    ∃ after, allocateNewPage heap ((reqSize + (alignment + alignInfo)).setWidth 32) =
        (page, after) ∧
      Enlarged heap { after with memRoot := page } [] page (pagesFor reqSize) ∧
      after.books = heap.books ∧
      after.pages = (heap.supply.tail, heap.pageCalls ++ [.alloc (pagesFor reqSize) page]) := by
  have created := allocateNewPage_page (rfl : _ = pagesFor reqSize) given pageFor.nonnull
  generalize allocateNewPage heap ((reqSize + (alignment + alignInfo)).setWidth 32) = pair at *
  obtain ⟨first, paged⟩ := pair
  obtain ⟨isPage, rest, atPage, outside⟩ := created
  dsimp only at isPage rest atPage outside
  generalize paged.memory = other at *
  subst rest isPage
  refine ⟨_, rfl, ⟨atPage, ?_, ?_, rfl, rfl, rfl, rfl⟩, rfl, rfl⟩
  · exact fun nonnull => absurd rfl nonnull
  · exact fun address offPage _ => outside address offPage

section Request

variable (short : reqSize.toNat + 112 + 4095 < 2 ^ 32)
include short

theorem mallocLocked_spec (heapAt : HeapAt heap arenas) (supplied : PagesSupplied heap arenas reqSize) :
    ∃ ptr after, mallocLocked heap reqSize = some (ptr, after.unlock) ∧
      Searched heap arenas reqSize (ptr, after) := by
  unfold mallocLocked
  dsimp only
  by_cases empty : heap.memRoot = 0#64
  · have isNil : arenas = [] := by
      cases arenas with
      | nil => rfl
      | cons root rest => exact absurd (heapAt.root.symm.trans empty) (heapAt.each root (by simp)).nonnull
    subst isNil
    rw [if_pos empty]
    by_cases given : heap.supply.headD 0#64 = 0#64
    · rw [allocateNewPage_null given]
      refine ⟨_, _, rfl, .refused (by simp) given ?_ rfl rfl rfl⟩
      exact ⟨rfl, heapAt.chain, heapAt.each, heapAt.beside, heapAt.bestBet, heapAt.allocated,
        heapAt.inuse⟩
    · have pageFor := supplied (by simp) given
      obtain ⟨after, isAfter, grown, books, pages⟩ := firstPages rfl pageFor
      obtain ⟨shortPages, enough, -⟩ := pagesFor_toNat short
      have afterAt := heapAt.grow grown pageFor shortPages enough
      have takes := takes_pagesFor short (heap.supply.headD 0#64)
      have noneAsked : PagesSupplied { after with memRoot := heap.supply.headD 0#64 }
          ([] ++ [⟨heap.supply.headD 0#64, pagesFor reqSize, []⟩]) reqSize := fun full =>
        absurd takes (full _ (by simp))
      obtain ⟨⟨ptr, later⟩, isResult, searched⟩ :=
        mallocStart_spec short afterAt (by simp) noneAsked
      rw [isAfter]
      dsimp only
      rw [if_neg given, isResult]
      refine ⟨ptr, later, rfl, ?_⟩
      cases searched with
      | @placed _ piece further _ spans samePages _ granted =>
          have isOnly : Nekonix.spans further = [(heap.supply.headD 0#64, pagesFor reqSize)] := by
            rw [spans]
            simp only [Nekonix.spans, List.nil_append, List.map_cons, List.map_nil]
          refine .grown (by simp) rfl pageFor isOnly (samePages.trans pages) ?_
            (granted.base rfl ?_ books)
          · intro _ arena member isEmpty
            have few : further.length = 1 := by
              simpa [Nekonix.spans] using congrArg List.length isOnly
            obtain ⟨only, rfl⟩ := List.length_eq_one_iff.mp few
            rw [List.mem_singleton.mp member] at isEmpty
            have isLive := granted.live.length_eq
            simp [live, isEmpty] at isLive
          · intro address notKept
            have span : (heap.supply.headD 0#64, pagesFor reqSize) ∈ Nekonix.spans further := by
              rw [isOnly]
              exact List.mem_singleton_self _
            have offPage : ¬InRange (heap.supply.headD 0#64) 40 address := fun inPage =>
              notKept (kept_of_span span inPage)
            exact grown.outside address offPage fun nonnull => absurd rfl nonnull
      | grown full => exact absurd takes (full _ (by simp))
      | refused full => exact absurd takes (full _ (by simp))
  · have nonempty : arenas ≠ [] := by
      rintro rfl
      exact empty heapAt.root
    obtain ⟨⟨ptr, after⟩, isResult, searched⟩ := mallocStart_spec short heapAt nonempty supplied
    rw [if_neg empty, if_neg empty, isResult]
    exact ⟨ptr, after, rfl, searched⟩

/-- Every request is answered. -/
theorem kmalloc_spec (unlocked : heap.locked = false) (heapAt : HeapAt heap arenas)
    (supplied : PagesSupplied heap arenas reqSize) :
    ∃ result, kmalloc heap reqSize = some result ∧ Searched heap arenas reqSize result := by
  have notZero : reqSize + (alignment + alignInfo) ≠ 0#64 := by
    unfold alignment alignInfo
    bv_omega
  obtain ⟨ptr, after, isResult, searched⟩ := mallocLocked_spec short heapAt.lock supplied
  refine ⟨(ptr, after.unlock), ?_, searched.unlock unlocked⟩
  unfold kmalloc Liballoc.lock
  rw [unlocked]
  exact (if_neg notZero).trans isResult

end Request

end Nekonix
