import Mathlib.Data.List.Induction

/-!
# One-place mailboxes

A mailbox holds at most one message.  Putting a message replaces the one that is
there, taking hands it out and leaves the mailbox empty.  What is taken is what a
take directly follows, so it is a subsequence of what was put, and only a message
put on top of another one makes it a proper one.
-/

namespace Mailbox

universe u

variable {Message : Type u}

inductive Action (Message : Type u) where
  | put (message : Message)
  | take

/-- The message that is there, and those put and taken so far, in order. -/
structure State (Message : Type u) where
  slot : Option Message
  sent : List Message
  taken : List Message

def empty : State Message := ⟨none, [], []⟩

def step (state : State Message) : Action Message → State Message
  | .put message => { state with slot := some message, sent := state.sent ++ [message] }
  | .take => { state with slot := none, taken := state.taken ++ state.slot.toList }

def run (actions : List (Action Message)) : State Message := actions.foldl step empty

/-- The messages that a take directly follows. -/
def answered (actions : List (Action Message)) : List Message :=
  (actions.zip actions.tail).filterMap fun
    | (.put message, .take) => some message
    | _ => none

/-- No message is put on top of another one. -/
def NoOverwrite (actions : List (Action Message)) : Prop :=
  ∀ message next, (.put message, .put next) ∉ actions.zip actions.tail

variable {actions : List (Action Message)} {action : Action Message}

@[simp]
theorem run_snoc (actions : List (Action Message)) (action : Action Message) :
    run (actions ++ [action]) = step (run actions) action := by
  simp [run]

/-- The neighbours in a list that is one longer. -/
theorem zip_tail_snoc {Alpha : Type u} (list : List Alpha) (last value : Alpha) :
    (list ++ [last] ++ [value]).zip (list ++ [last] ++ [value]).tail =
      (list ++ [last]).zip (list ++ [last]).tail ++ [(last, value)] := by
  induction list with
  | nil => rfl
  | cons first rest inductionHypothesis =>
      cases rest with
      | nil => rfl
      | cons second rest =>
          simp only [List.cons_append, List.tail_cons, List.zip_cons_cons] at inductionHypothesis ⊢
          rw [inductionHypothesis]

/-- A message is there exactly after it was put. -/
theorem slot_run (actions : List (Action Message)) (action : Action Message) :
    (run (actions ++ [action])).slot =
      match action with
      | .put message => some message
      | .take => none := by
  rw [run_snoc]
  cases action <;> rfl

theorem taken_run (actions : List (Action Message)) : (run actions).taken = answered actions := by
  induction actions using List.reverseRecOn with
  | nil => rfl
  | append_singleton actions action inductionHypothesis =>
      rcases List.eq_nil_or_concat actions with empty | ⟨before, last, ends⟩
      · subst empty
        cases action <;> rfl
      · rw [List.concat_eq_append] at ends
        subst ends
        rw [run_snoc, answered, zip_tail_snoc, List.filterMap_append, ← answered,
          ← inductionHypothesis]
        cases action with
        | put message => cases last <;> simp [step]
        | take => cases last <;> simp [step]

/-- What is taken, with what is there, keeps the order of what was put and ends
with the message put last. -/
theorem sublist_sent (actions : List (Action Message)) :
    ((run actions).taken ++ (run actions).slot.toList).Sublist (run actions).sent ∧
      ((run actions).taken ++ (run actions).slot.toList).getLast? =
        (run actions).sent.getLast? := by
  induction actions using List.reverseRecOn with
  | nil => exact ⟨List.Sublist.refl _, rfl⟩
  | append_singleton actions action inductionHypothesis =>
      obtain ⟨sublist, last⟩ := inductionHypothesis
      rw [run_snoc]
      cases action with
      | put message =>
          refine ⟨?_, by simp [step]⟩
          exact ((List.sublist_append_left _ _).trans sublist).append (List.Sublist.refl _)
      | take =>
          simp only [step, Option.toList_none, List.append_nil]
          exact ⟨sublist, last⟩

/-- Every message is taken or still there exactly if none was overwritten. -/
theorem complete_iff (actions : List (Action Message)) :
    (run actions).taken ++ (run actions).slot.toList = (run actions).sent ↔
      NoOverwrite actions := by
  induction actions using List.reverseRecOn with
  | nil => simp [run, empty, NoOverwrite]
  | append_singleton actions action inductionHypothesis =>
      rcases List.eq_nil_or_concat actions with isEmpty | ⟨before, last, ends⟩
      · subst isEmpty
        cases action <;> simp [run, step, empty, NoOverwrite]
      · rw [List.concat_eq_append] at ends
        subst ends
        have slot := slot_run before last
        have sublist := (sublist_sent (before ++ [last])).1
        rw [run_snoc, NoOverwrite, zip_tail_snoc]
        simp only [List.mem_append, not_or, forall_and, List.mem_singleton, Prod.mk.injEq]
        rw [← NoOverwrite, ← inductionHypothesis]
        generalize run (before ++ [last]) = state at slot sublist
        cases action with
        | take => simp [step]
        | put message =>
            cases last with
            | take => simp [step, slot]
            | put earlier =>
                -- the earlier message is lost, so a message is missing for good
                have shorter := sublist.length_le
                simp only [slot, Option.toList_some, List.length_append, List.length_singleton]
                  at shorter
                have missing : state.taken ≠ state.sent := by
                  intro same
                  rw [same] at shorter
                  omega
                simp [step, missing]

end Mailbox
