import Mathlib.Data.List.Basic
import Mathlib.Data.List.Nodup

/-!
# Doubly linked lists in a store of cells

Each cell of a list leads to the one behind it and back to the one in front of it.  A list
splits into two at any place, and so takes a new cell in or lets one go by changing the links
at that place only.
-/

namespace DoublyLinked

universe u

variable {Cell : Type u}

/-- The cells in order, `before` being in front of the first one and `behind` after the last. -/
def Chain (next prev : Cell → Cell) : (before : Cell) → List Cell → (behind : Cell) → Prop
  | _, [], _ => True
  | before, cell :: rest, behind =>
      prev cell = before ∧ next cell = rest.headD behind ∧ Chain next prev cell rest behind

variable {next prev next' prev' : Cell → Cell} {before behind cell : Cell} {front back : List Cell}

@[simp]
theorem chain_nil : Chain next prev before [] behind := trivial

@[simp]
theorem chain_cons : Chain next prev before (cell :: back) behind ↔
    prev cell = before ∧ next cell = back.headD behind ∧ Chain next prev cell back behind :=
  Iff.rfl

theorem chain_append : Chain next prev before (front ++ back) behind ↔
    Chain next prev before front (back.headD behind) ∧
      Chain next prev (front.getLastD before) back behind := by
  induction front generalizing before with
  | nil => simp
  | cons first rest inductionHypothesis =>
      have start : (rest ++ back).headD behind = rest.headD (back.headD behind) := by
        cases rest <;> rfl
      rw [List.cons_append, chain_cons, chain_cons, inductionHypothesis, start,
        List.getLastD_cons, and_assoc, and_assoc]

namespace Chain

/-- A cell in the middle has its neighbours. -/
theorem links (chain : Chain next prev before (front ++ cell :: back) behind) :
    prev cell = front.getLastD before ∧ next cell = back.headD behind := by
  obtain ⟨-, isPrev, isNext, -⟩ := chain_append.mp chain
  exact ⟨isPrev, isNext⟩

theorem congr (chain : Chain next prev before front behind)
    (nexts : ∀ cell ∈ front, next' cell = next cell)
    (prevs : ∀ cell ∈ front, prev' cell = prev cell) :
    Chain next' prev' before front behind := by
  induction front generalizing before with
  | nil => trivial
  | cons first rest inductionHypothesis =>
      obtain ⟨isPrev, isNext, further⟩ := chain
      refine ⟨?_, ?_, inductionHypothesis further ?_ ?_⟩
      · rw [prevs first List.mem_cons_self, isPrev]
      · rw [nexts first List.mem_cons_self, isNext]
      · exact fun cell later => nexts cell (List.mem_cons_of_mem _ later)
      · exact fun cell later => prevs cell (List.mem_cons_of_mem _ later)

/-- The last cell is linked elsewhere. -/
theorem retarget {behind' : Cell} (chain : Chain next prev before front behind)
    (distinct : front.Nodup) (last : ∀ cell ∈ front.getLast?, next' cell = behind')
    (nexts : ∀ cell ∈ front, front.getLast? ≠ some cell → next' cell = next cell)
    (prevs : ∀ cell ∈ front, prev' cell = prev cell) :
    Chain next' prev' before front behind' := by
  induction front generalizing before with
  | nil => trivial
  | cons first rest inductionHypothesis =>
      obtain ⟨isPrev, isNext, further⟩ := chain
      obtain ⟨notLater, distinctRest⟩ := List.nodup_cons.mp distinct
      have isPrev' : prev' first = before := by rw [prevs first List.mem_cons_self, isPrev]
      cases rest with
      | nil => exact ⟨isPrev', last first rfl, trivial⟩
      | cons second rest =>
          rw [List.getLast?_cons_cons] at last nexts
          have notLast : (second :: rest).getLast? ≠ some first := fun isLast =>
            notLater (List.mem_of_getLast? isLast)
          refine ⟨isPrev', ?_, inductionHypothesis further distinctRest last ?_ ?_⟩
          · rw [nexts first List.mem_cons_self notLast, isNext]
            rfl
          · exact fun cell later => nexts cell (List.mem_cons_of_mem _ later)
          · exact fun cell later => prevs cell (List.mem_cons_of_mem _ later)

/-- The first cell is linked back elsewhere. -/
theorem rehead {before' : Cell} (chain : Chain next prev before back behind)
    (distinct : back.Nodup) (first : ∀ cell ∈ back.head?, prev' cell = before')
    (nexts : ∀ cell ∈ back, next' cell = next cell)
    (prevs : ∀ cell ∈ back, back.head? ≠ some cell → prev' cell = prev cell) :
    Chain next' prev' before' back behind := by
  cases back with
  | nil => trivial
  | cons head rest =>
      obtain ⟨-, isNext, further⟩ := chain
      obtain ⟨notLater, -⟩ := List.nodup_cons.mp distinct
      refine ⟨first head rfl, ?_, further.congr ?_ ?_⟩
      · rw [nexts head List.mem_cons_self, isNext]
      · exact fun cell later => nexts cell (List.mem_cons_of_mem _ later)
      · intro cell later
        refine prevs cell (List.mem_cons_of_mem _ later) ?_
        rintro isHead
        cases isHead
        exact notLater later

/-! With the same value `null` in front of the list and behind it, which is no cell -/

theorem getLast?_of_getLastD {null : Cell} (nonnull : cell ≠ null)
    (isLast : cell = front.getLastD null) : front.getLast? = some cell := by
  rw [List.getLastD_eq_getLast?] at isLast
  cases last : front.getLast? with
  | none => exact absurd (by simpa [last] using isLast) nonnull
  | some other => simpa [last] using isLast.symm

theorem head?_of_headD {null : Cell} (nonnull : cell ≠ null) (isHead : cell = back.headD null) :
    back.head? = some cell := by
  cases back with
  | nil => exact absurd isHead nonnull
  | cons head rest => exact congrArg some isHead.symm

variable {null forward backward : Cell} [DecidableEq Cell]

/-- The two parts of a list whose links to one another are changed. -/
theorem seam {before behind : Cell} (inFront : Chain next prev null front behind)
    (inBack : Chain next prev before back null) (distinct : (front ++ back).Nodup)
    (nonnull : ∀ other ∈ front ++ back, other ≠ null)
    (nexts : ∀ other ∈ front ++ back,
      next' other = if other = front.getLastD null then forward else next other)
    (prevs : ∀ other ∈ front ++ back,
      prev' other = if other = back.headD null then backward else prev other) :
    Chain next' prev' null front forward ∧ Chain next' prev' backward back null := by
  obtain ⟨distinctFront, distinctBack, apart⟩ := List.nodup_append.mp distinct
  constructor
  · refine inFront.retarget distinctFront ?_ ?_ ?_
    · intro other isLast
      have member := List.mem_append_left back (List.mem_of_getLast? isLast)
      rw [nexts other member, List.getLastD_eq_getLast?, isLast]
      exact if_pos rfl
    · intro other inFront isOther
      have member := List.mem_append_left back inFront
      rw [nexts other member]
      exact if_neg fun isLast => isOther (getLast?_of_getLastD (nonnull other member) isLast)
    · intro other inFront
      have member := List.mem_append_left back inFront
      rw [prevs other member]
      refine if_neg fun isHead => ?_
      have inBack := List.mem_of_head? (head?_of_headD (nonnull other member) isHead)
      exact apart other inFront other inBack rfl
  · refine inBack.rehead distinctBack ?_ ?_ ?_
    · intro other isHead
      have member := List.mem_append_right front (List.mem_of_head? isHead)
      rw [prevs other member, List.headD_eq_head?_getD, isHead]
      exact if_pos rfl
    · intro other inBack
      have member := List.mem_append_right front inBack
      rw [nexts other member]
      refine if_neg fun isLast => ?_
      have inFront := List.mem_of_getLast? (getLast?_of_getLastD (nonnull other member) isLast)
      exact apart other inFront other inBack rfl
    · intro other inBack isOther
      have member := List.mem_append_right front inBack
      rw [prevs other member]
      exact if_neg fun isHead => isOther (head?_of_headD (nonnull other member) isHead)

/-- A new cell between two parts of a list. -/
theorem link (chain : Chain next prev null (front ++ back) null)
    (distinct : (front ++ back).Nodup) (nonnull : ∀ other ∈ front ++ back, other ≠ null)
    (newNext : next' cell = back.headD null) (newPrev : prev' cell = front.getLastD null)
    (nexts : ∀ other ∈ front ++ back,
      next' other = if other = front.getLastD null then cell else next other)
    (prevs : ∀ other ∈ front ++ back,
      prev' other = if other = back.headD null then cell else prev other) :
    Chain next' prev' null (front ++ cell :: back) null := by
  obtain ⟨inFront, inBack⟩ := chain_append.mp chain
  obtain ⟨toCell, fromCell⟩ := inFront.seam inBack distinct nonnull nexts prevs
  exact chain_append.mpr ⟨toCell, newPrev, newNext, fromCell⟩

/-- A cell taken out from between two parts of a list. -/
theorem unlink (chain : Chain next prev null (front ++ cell :: back) null)
    (distinct : (front ++ back).Nodup) (nonnull : ∀ other ∈ front ++ back, other ≠ null)
    (nexts : ∀ other ∈ front ++ back,
      next' other = if other = front.getLastD null then back.headD null else next other)
    (prevs : ∀ other ∈ front ++ back,
      prev' other = if other = back.headD null then front.getLastD null else prev other) :
    Chain next' prev' null (front ++ back) null := by
  obtain ⟨inFront, -, -, inBack⟩ := chain_append.mp chain
  exact chain_append.mpr (inFront.seam inBack distinct nonnull nexts prevs)

end Chain

end DoublyLinked
