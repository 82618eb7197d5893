import Mathlib.Data.List.Basic

/-!
# Runs of a transition system

Finite runs of a labelled step relation, with the labels in order.  Every
state a system reaches is the end of a run, so a property of all runs is a
property of all reachable states.
-/

namespace Transition

universe u v w x

variable {State : Type u} {Action : Type v}

/-- The runs that begin in `start`: the actions taken and the state reached. -/
inductive Run (Step : State → Action → State → Prop) (start : State) :
    List Action → State → Prop where
  | nil : Run Step start [] start
  | snoc {actions middle action finish} :
      Run Step start actions middle → Step middle action finish →
      Run Step start (actions ++ [action]) finish

/-- Steps of a total operation that may be taken only where `allowed`. -/
def guarded (step : State → Action → State) (allowed : State → Action → Prop) :
    State → Action → State → Prop :=
  fun state action next => allowed state action ∧ next = step state action

variable {Step : State → Action → State → Prop} {start finish : State} {actions : List Action}

/-- What holds at the start and is kept by each step holds at the end of every run. -/
theorem Run.invariant (Invariant : State → Prop) (initially : Invariant start)
    (kept : ∀ state action next, Invariant state → Step state action next → Invariant next)
    (run : Run Step start actions finish) : Invariant finish := by
  induction run with
  | nil => exact initially
  | snoc _ step inductionHypothesis => exact kept _ _ _ inductionHypothesis step

theorem Run.single {action : Action} (step : Step start action finish) :
    Run Step start [action] finish :=
  Run.nil.snoc step

theorem Run.append {middle : State} {further : List Action}
    (first : Run Step start actions middle) (second : Run Step middle further finish) :
    Run Step start (actions ++ further) finish := by
  induction second with
  | nil => simpa using first
  | snoc _ step inductionHypothesis =>
      rw [← List.append_assoc]
      exact inductionHypothesis.snoc step

/-- A run of some steps is a run of any steps that include them. -/
theorem Run.mono {Wider : State → Action → State → Prop}
    (wider : ∀ state action next, Step state action next → Wider state action next)
    (run : Run Step start actions finish) : Run Wider start actions finish := by
  induction run with
  | nil => exact .nil
  | snoc _ step inductionHypothesis => exact inductionHypothesis.snoc (wider _ _ _ step)

/-- What each step asks of its action holds of every action of a run. -/
theorem Run.all (Asked : Action → Prop)
    (asks : ∀ state action next, Step state action next → Asked action)
    (run : Run Step start actions finish) : ∀ action ∈ actions, Asked action := by
  induction run with
  | nil => simp
  | snoc _ step inductionHypothesis =>
      intro action membership
      rcases List.mem_append.mp membership with earlier | here
      · exact inductionHypothesis action earlier
      · rw [List.mem_singleton.mp here]
        exact asks _ _ _ step

/-- The last action of a run that concerns `place`. -/
def lastAt {Key : Type w} [DecidableEq Key] (key : Action → Key) (actions : List Action)
    (place : Key) : Option Action :=
  actions.reverse.find? fun action => key action = place

theorem lastAt_append {Key : Type w} [DecidableEq Key] (key : Action → Key)
    (actions further : List Action) (place : Key) :
    lastAt key (actions ++ further) place =
      (lastAt key further place).or (lastAt key actions place) := by
  unfold lastAt
  rw [List.reverse_append, List.find?_append]

theorem lastAt_singleton {Key : Type w} [DecidableEq Key] (key : Action → Key) (action : Action)
    (place : Key) : lastAt key [action] place = if key action = place then some action else none := by
  by_cases here : key action = place <;> simp [lastAt, here]

theorem lastAt_snoc {Key : Type w} [DecidableEq Key] (key : Action → Key) (actions : List Action)
    (action : Action) (place : Key) :
    lastAt key (actions ++ [action]) place =
      if key action = place then some action else lastAt key actions place := by
  rw [lastAt_append, lastAt_singleton]
  split <;> rfl

theorem lastAt_map {Key : Type w} {Other : Type x} [DecidableEq Key] (key : Action → Key)
    (read : Other → Action) (others : List Other) (place : Key) :
    lastAt key (others.map read) place =
      (lastAt (fun other => key (read other)) others place).map read := by
  unfold lastAt
  rw [← List.map_reverse, List.find?_map]
  rfl

theorem lastAt_some {Key : Type w} [DecidableEq Key] {key : Action → Key}
    {actions : List Action} {action : Action} {place : Key}
    (last : lastAt key actions place = some action) : action ∈ actions ∧ key action = place := by
  have found := List.find?_some last
  exact ⟨List.mem_reverse.mp (List.mem_of_find?_eq_some last), by simpa using found⟩

/-- An action at a place has a last one after it. -/
theorem lastAt_of_mem {Key : Type w} [DecidableEq Key] (key : Action → Key)
    {actions : List Action} {action : Action} (membership : action ∈ actions) :
    ∃ last, lastAt key actions (key action) = some last := by
  rw [← Option.isSome_iff_exists, lastAt, List.find?_isSome]
  exact ⟨action, List.mem_reverse.mpr membership, decide_eq_true rfl⟩

/-- Where each step writes one value at one place, a place ends with what the
last action there wrote, and with its first value if there was none. -/
theorem Run.lastAt {Key : Type w} {Value : Type x} [DecidableEq Key]
    (Invariant : State → Prop) (initially : Invariant start)
    (kept : ∀ state action next, Invariant state → Step state action next → Invariant next)
    (key : Action → Key) (value : Action → Value) (place : Key) (observe : State → Value)
    (written : ∀ state action next, Invariant state → Step state action next →
      observe next = if key action = place then value action else observe state)
    (run : Run Step start actions finish) :
    observe finish = ((lastAt key actions place).map value).getD (observe start) := by
  induction run with
  | nil => rfl
  | snoc before step inductionHypothesis =>
      have invariant := before.invariant Invariant initially kept
      rw [written _ _ _ invariant step, lastAt_snoc]
      split
      · rfl
      · exact inductionHypothesis

end Transition
