import Nekonix.Library.Run

/-!
# A store of blocks

What a heap is for: blocks that are given out under pointers, each with its contents, until they
are taken back.  A block that changes its size may move and takes its contents along.  No other
action shows in a block than those on its pointer.
-/

namespace BlockStore

universe u v

variable {Ptr : Type u} {Byte : Type v}

/-- The contents of the blocks that are out. -/
abbrev Store (Ptr : Type u) (Byte : Type v) := Ptr → Option (List Byte)

/-- No block is out. -/
def empty : Store Ptr Byte := fun _ => none

/-- What is done, and the pointer that is returned. -/
inductive Action (Ptr : Type u) (Byte : Type v) where
  | alloc (size : Nat) (result : Ptr)
  | zeroed (size : Nat) (result : Ptr)
  | resize (ptr : Ptr) (size : Nat) (result : Ptr)
  | free (ptr : Ptr)
  | write (ptr : Ptr) (offset : Nat) (byte : Byte)

variable [DecidableEq Ptr]

def put (store : Store Ptr Byte) (ptr : Ptr) (contents : Option (List Byte)) : Store Ptr Byte :=
  fun other => if other = ptr then contents else store other

/-- A new block has a pointer that is out for no other, and is not `null`. -/
def Fresh (null : Ptr) (store : Store Ptr Byte) (ptr : Ptr) : Prop :=
  ptr ≠ null ∧ store ptr = none

/-- The steps.  A request may be refused with `null`, and then nothing changes. -/
inductive Step (null : Ptr) (zero : Byte) :
    Store Ptr Byte → Action Ptr Byte → Store Ptr Byte → Prop where
  | refused {store size} : Step null zero store (.alloc size null) store
  | alloc {store ptr size contents} (fresh : Fresh null store ptr)
      (length : contents.length = size) :
      Step null zero store (.alloc size ptr) (put store ptr (some contents))
  | zeroed {store ptr size} (fresh : Fresh null store ptr) :
      Step null zero store (.zeroed size ptr) (put store ptr (some (List.replicate size zero)))
  | shrink {store ptr contents size} (held : store ptr = some contents)
      (shorter : size ≤ contents.length) :
      Step null zero store (.resize ptr size ptr) (put store ptr (some (contents.take size)))
  | move {store ptr contents more size result} (held : store ptr = some contents)
      (fresh : Fresh null store result) (length : contents.length + more.length = size) :
      Step null zero store (.resize ptr size result)
        (put (put store ptr none) result (some (contents ++ more)))
  | free {store ptr contents} (held : store ptr = some contents) :
      Step null zero store (.free ptr) (put store ptr none)
  | write {store ptr contents offset byte} (held : store ptr = some contents)
      (inside : offset < contents.length) :
      Step null zero store (.write ptr offset byte) (put store ptr (some (contents.set offset byte)))

variable {null ptr other : Ptr} {zero byte : Byte} {store start finish : Store Ptr Byte}
  {action : Action Ptr Byte} {actions : List (Action Ptr Byte)} {contents : List Byte}

@[simp]
theorem put_same {contents : Option (List Byte)} : put store ptr contents ptr = contents := if_pos rfl

theorem put_other {contents : Option (List Byte)} (different : other ≠ ptr) :
    put store ptr contents other = store other := if_neg different

/-- The action takes the block away, or gives its pointer to a block. -/
def Action.Ends (ptr : Ptr) : Action Ptr Byte → Prop
  | .alloc _ _ => False
  | .zeroed _ _ => False
  | .resize moved _ _ => moved = ptr
  | .free freed => freed = ptr
  | .write _ _ _ => False

/-- What the writes to a block make of its contents. -/
def rewrite (ptr : Ptr) (contents : List Byte) : Action Ptr Byte → List Byte
  | .write written offset byte => if written = ptr then contents.set offset byte else contents
  | _ => contents

/-- One step changes a block by a write to it only, unless it ends the block. -/
theorem Step.keeps (step : Step null zero store action finish) (held : store ptr = some contents)
    (goesOn : ¬action.Ends ptr) : finish ptr = some (rewrite ptr contents action) := by
  have fresh_ne : ∀ {result}, Fresh null store result → ptr ≠ result := by
    rintro result ⟨-, isNone⟩ rfl
    rw [held] at isNone
    cases isNone
  cases step with
  | refused => exact held
  | alloc fresh _ => exact (put_other (fresh_ne fresh)).trans held
  | zeroed fresh => exact (put_other (fresh_ne fresh)).trans held
  | shrink _ _ => exact (put_other (Ne.symm goesOn)).trans held
  | move _ fresh _ =>
      exact (put_other (fresh_ne fresh)).trans ((put_other (Ne.symm goesOn)).trans held)
  | free _ => exact (put_other (Ne.symm goesOn)).trans held
  | @write written old offset byte isOld _ =>
      by_cases here : written = ptr
      · subst here
        have same : old = contents := Option.some.inj (isOld.symm.trans held)
        simp [rewrite, same]
      · simp only [rewrite, if_neg here]
        exact (put_other (Ne.symm here)).trans held

/-- Over a run that does not end it, a block has what its own writes made of it. -/
theorem run_contents (run : Transition.Run (Step null zero) start actions finish)
    (held : start ptr = some contents) (goesOn : ∀ action ∈ actions, ¬action.Ends ptr) :
    finish ptr = some (actions.foldl (rewrite ptr) contents) := by
  induction run with
  | nil => exact held
  | snoc _ step inductionHypothesis =>
      have before := inductionHypothesis fun action member =>
        goesOn action (List.mem_append_left _ member)
      rw [List.foldl_append]
      exact step.keeps before (goesOn _ (List.mem_append_right _ (List.mem_singleton_self _)))

end BlockStore
