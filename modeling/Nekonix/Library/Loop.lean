import Mathlib.Data.List.Basic
import Mathlib.Logic.Relation

/-!
# Loops

A loop by what one turn does: it leaves with a result, or goes on in a state.  That a
loop ends is a derivation with the states its turns began in, so nothing here bounds
the turns in advance.
-/

namespace Loop

universe u v

inductive Turn (State : Type u) (Result : Type v) where
  | leave (result : Result)
  | next (state : State)

variable {State : Type u} {Result : Type v}

/-- The loop ends with `result`; its turns began in `heads`, the last one left. -/
inductive Ends (body : State → Turn State Result) : State → List State → Result → Prop where
  | leave {state result} : body state = .leave result → Ends body state [state] result
  | turn {state next heads result} :
      body state = .next next → Ends body next heads result →
      Ends body state (state :: heads) result

variable {body : State → Turn State Result} {state : State} {heads : List State} {result : Result}

/-- The first turns of a loop: where they began and the result, if that many are enough. -/
def run (body : State → Turn State Result) : (fuel : Nat) → State → Option (List State × Result)
  | 0, _ => none
  | fuel + 1, state =>
      match body state with
      | .leave result => some ([state], result)
      | .next next => (run body fuel next).map fun (heads, result) => (state :: heads, result)

theorem run_leave (left : body state = .leave result) (fuel : Nat) :
    run body (fuel + 1) state = some ([state], result) := by
  rw [run, left]

theorem run_next {next : State} (isNext : body state = .next next) (fuel : Nat) :
    run body (fuel + 1) state =
      (run body fuel next).map fun (heads, result) => (state :: heads, result) := by
  rw [run, isNext]

/-- A loop ends exactly if some number of turns is enough for it. -/
theorem ends_iff_run : Ends body state heads result ↔
    ∃ fuel, run body fuel state = some (heads, result) := by
  constructor
  · intro ends
    induction ends with
    | leave left => exact ⟨1, run_leave left 0⟩
    | turn isNext _ inductionHypothesis =>
        obtain ⟨fuel, further⟩ := inductionHypothesis
        refine ⟨fuel + 1, ?_⟩
        rw [run_next isNext, further, Option.map_some]
  · rintro ⟨fuel, ran⟩
    induction fuel generalizing state heads with
    | zero => cases ran
    | succ fuel inductionHypothesis =>
        cases turn : body state with
        | leave left =>
            rw [run_leave turn] at ran
            cases ran
            exact .leave turn
        | next next =>
            rw [run_next turn] at ran
            obtain ⟨⟨later, found⟩, further, isPair⟩ := Option.map_eq_some_iff.mp ran
            cases isPair
            exact .turn turn (inductionHypothesis further)

/-- More turns than enough change nothing. -/
theorem run_more {fuel more : Nat} (enough : run body fuel state = some (heads, result))
    (atLeast : fuel ≤ more) : run body more state = some (heads, result) := by
  induction fuel generalizing state heads result more with
  | zero => cases enough
  | succ fuel inductionHypothesis =>
      cases more with
      | zero => exact absurd atLeast (Nat.not_succ_le_zero fuel)
      | succ more =>
          cases turn : body state with
          | leave left =>
              rw [run_leave turn] at enough ⊢
              exact enough
          | next next =>
              rw [run_next turn] at enough ⊢
              obtain ⟨⟨later, found⟩, further, isPair⟩ := Option.map_eq_some_iff.mp enough
              rw [inductionHypothesis further (Nat.le_of_succ_le_succ atLeast)]
              exact congrArg some isPair

/-- As many turns as a loop takes are enough for it. -/
theorem Ends.run_of_le {fuel : Nat} (ends : Ends body state heads result)
    (enough : heads.length ≤ fuel) : run body fuel state = some (heads, result) := by
  refine run_more ?_ enough
  induction ends with
  | leave left => exact run_leave left 0
  | turn isNext _ inductionHypothesis =>
      have further := inductionHypothesis (Nat.le_of_succ_le enough)
      rw [List.length_cons, run_next isNext, further, Option.map_some]

/-- A turn begins in `later` sooner or later. -/
def Reaches (body : State → Turn State Result) : State → State → Prop :=
  Relation.ReflTransGen fun before after => body before = .next after

/-- The states that a loop that ends reaches are those its turns begin in. -/
theorem Ends.mem_of_reaches {later : State} (ends : Ends body state heads result)
    (reaches : Reaches body state later) : later ∈ heads := by
  induction ends with
  | leave left =>
      rcases reaches.cases_head with rfl | ⟨next, isNext, -⟩
      · exact List.mem_singleton_self _
      · rw [left] at isNext
        cases isNext
  | turn isNext _ inductionHypothesis =>
      rcases reaches.cases_head with rfl | ⟨next, alsoNext, further⟩
      · exact List.mem_cons_self
      · rw [isNext] at alsoNext
        cases alsoNext
        exact List.mem_cons_of_mem _ (inductionHypothesis further)

/-- A loop ends if each turn lowers a measure. -/
theorem ends_of_measure (Invariant : State → Prop) (measure : State → Nat)
    (lower : ∀ state next, Invariant state → body state = .next next →
      Invariant next ∧ measure next < measure state)
    (initially : Invariant state) :
    ∃ heads result, Ends body state heads result ∧ heads.length ≤ measure state + 1 := by
  induction isSize : measure state using Nat.strongRecOn generalizing state with
  | ind size inductionHypothesis =>
      cases turn : body state with
      | leave result => exact ⟨_, result, .leave turn, Nat.le_add_left 1 size⟩
      | next next =>
          obtain ⟨kept, smaller⟩ := lower _ _ initially turn
          obtain ⟨heads, result, ends, short⟩ :=
            inductionHypothesis _ (isSize ▸ smaller) kept rfl
          refine ⟨_, result, .turn turn ends, ?_⟩
          rw [List.length_cons]
          omega

/-- A loop does not end if it always goes on in a state of some kind. -/
theorem not_ends (Kind : State → Prop)
    (goesOn : ∀ state, Kind state → ∃ next, body state = .next next ∧ Kind next)
    (initially : Kind state) : ¬Ends body state heads result := by
  intro ends
  induction ends with
  | leave left =>
      obtain ⟨next, isNext, -⟩ := goesOn _ initially
      rw [left] at isNext
      cases isNext
  | turn isNext _ inductionHypothesis =>
      obtain ⟨next, alsoNext, kind⟩ := goesOn _ initially
      rw [isNext] at alsoNext
      cases alsoNext
      exact inductionHypothesis kind

end Loop
