import Mathlib.Order.BooleanAlgebra.Set
import Mathlib.Logic.Function.Basic

/-!
# Logs of heap calls

The blocks that a log of heap calls leaves live, when each call of it is valid, and
how a program that keeps track of the owner of each block makes valid calls only.
-/

namespace HeapLedger

universe u v

variable {Block : Type u}

/-! Owners of blocks -/

variable {Owner : Type v}

/-- Every owner holds a live block of its own, or `null`. -/
structure Owns (null : Block) (holds : Owner → Block) (live : Set Block) : Prop where
  live : ∀ owner, holds owner ≠ null → holds owner ∈ live
  apart : ∀ owner other, holds owner ≠ null → holds owner = holds other → owner = other

variable {null : Block} {live : Set Block} {holds holds' holds'' : Owner → Block} {block moved : Block}

namespace Owns

theorem null_or_live (owns : Owns null holds live) {owner : Owner} (held : holds owner = block) :
    block = null ∨ block ∈ live := by
  by_cases isNull : block = null
  · exact Or.inl isNull
  · subst held
    exact Or.inr (owns.live owner isNull)

theorem fewer (owns : Owns null holds live)
    (kept : ∀ owner, holds' owner = holds owner ∨ holds' owner = null) :
    Owns null holds' live where
  live := by
    intro owner nonnull
    have same := (kept owner).resolve_right nonnull
    rw [same] at nonnull ⊢
    exact owns.live owner nonnull
  apart := by
    intro owner other nonnull equal
    have same := (kept owner).resolve_right nonnull
    have sameOther := (kept other).resolve_right (equal ▸ nonnull)
    rw [same] at nonnull equal
    rw [sameOther] at equal
    exact owns.apart owner other nonnull equal

variable [DecidableEq Owner]

theorem forget (owns : Owns null holds live) (owner : Owner) :
    Owns null (Function.update holds owner null) live := by
  refine owns.fewer fun other => ?_
  by_cases here : other = owner
  · rw [here, Function.update_self]
    exact Or.inr rfl
  · rw [Function.update_of_ne here]
    exact Or.inl rfl

theorem acquire (owns : Owns null holds live) (fresh : block ∉ live) (owner : Owner) :
    Owns null (Function.update holds owner block) (insert block live) where
  live := by
    intro other nonnull
    by_cases here : other = owner
    · rw [here, Function.update_self]
      exact Set.mem_insert _ _
    · rw [Function.update_of_ne here] at nonnull ⊢
      exact Set.mem_insert_of_mem _ (owns.live other nonnull)
  apart := by
    have different : ∀ other, holds other ≠ null → holds other ≠ block := by
      intro other nonnull isBlock
      exact fresh (isBlock ▸ owns.live other nonnull)
    intro first second nonnull equal
    by_cases isFirst : first = owner
    · by_cases isSecond : second = owner
      · rw [isFirst, isSecond]
      · rw [isFirst, Function.update_self] at nonnull equal
        rw [Function.update_of_ne isSecond] at equal
        exact absurd equal.symm (different second (equal ▸ nonnull))
    · rw [Function.update_of_ne isFirst] at nonnull equal
      by_cases isSecond : second = owner
      · rw [isSecond, Function.update_self] at equal
        exact absurd equal (different first nonnull)
      · rw [Function.update_of_ne isSecond] at equal
        exact owns.apart first second nonnull equal

theorem release (owns : Owns null holds live) (owner : Owner) :
    Owns null (Function.update holds owner null) (live \ {holds owner}) where
  live := by
    intro other nonnull
    by_cases here : other = owner
    · rw [here, Function.update_self] at nonnull
      exact absurd rfl nonnull
    · rw [Function.update_of_ne here] at nonnull ⊢
      refine ⟨owns.live other nonnull, ?_⟩
      intro same
      exact here (owns.apart other owner nonnull same)
  apart := (owns.forget owner).apart

end Owns

/-! Calls -/

/-- `null` as the result of an allocation means that it failed. -/
inductive Call (Block : Type u) where
  | alloc (block : Block)
  | free (block : Block)
  | realloc (block moved : Block)

variable [DecidableEq Block] (null) (excluded : Block → Prop)

/-- The live blocks after a call. -/
def Call.after (live : Set Block) : Call Block → Set Block
  | .alloc block => if block = null then live else insert block live
  | .free block => live \ {block}
  | .realloc block moved => if moved = null then live else insert moved (live \ {block})

/-- Nothing but `null` or a live block is given to the heap. -/
def Call.Valid (live : Set Block) : Call Block → Prop
  | .alloc _ => True
  | .free block => block = null ∨ block ∈ live
  | .realloc block _ => block = null ∨ block ∈ live

/-- The heap gives out nothing but `null` or a block that is not in use, and no
`excluded` one. -/
def Call.Honest (live : Set Block) : Call Block → Prop
  | .alloc block => block = null ∨ block ∉ live ∧ ¬excluded block
  | .free _ => True
  | .realloc block moved => moved = null ∨ moved ∉ live \ {block} ∧ ¬excluded moved

/-- The live blocks after a log. -/
def blocks (live : Set Block) (calls : List (Call Block)) : Set Block :=
  calls.foldl (Call.after null) live

/-- Each call of a log has the property where it is made. -/
def Along (property : Set Block → Call Block → Prop) : Set Block → List (Call Block) → Prop
  | _, [] => True
  | live, call :: calls => property live call ∧ Along property (call.after null live) calls

/-- All calls of a log are valid. -/
abbrev Valid (live : Set Block) (calls : List (Call Block)) : Prop :=
  Along null (Call.Valid null) live calls

/-- The heap is honest in all calls of a log. -/
abbrev Honest (live : Set Block) (calls : List (Call Block)) : Prop :=
  Along null (Call.Honest null excluded) live calls

variable {null excluded} {calls further : List (Call Block)}

@[simp]
theorem blocks_nil : blocks null live [] = live := rfl

@[simp]
theorem blocks_cons (call : Call Block) :
    blocks null live (call :: calls) = blocks null (call.after null live) calls := rfl

@[simp]
theorem blocks_append :
    blocks null live (calls ++ further) = blocks null (blocks null live calls) further :=
  List.foldl_append

theorem along_append {property : Set Block → Call Block → Prop} :
    Along null property live (calls ++ further) ↔
      Along null property live calls ∧ Along null property (blocks null live calls) further := by
  induction calls generalizing live with
  | nil => simp [Along]
  | cons call calls inductionHypothesis =>
      simp only [List.cons_append, Along, blocks_cons, inductionHypothesis, and_assoc]

/-- A block that is given back after calls that leave the live blocks as they were. -/
theorem blocks_enclosed {block : Block} (nonnull : block ≠ null)
    (kept : ∀ live, Honest null excluded live calls → blocks null live calls = live)
    (honest : Honest null excluded live ([.alloc block] ++ calls ++ [.free block])) :
    blocks null live ([.alloc block] ++ calls ++ [.free block]) = live := by
  have fresh := (honest.1.resolve_left nonnull).1
  have inner := (along_append.mp (along_append.mp honest).1).2
  have given : blocks null live [.alloc block] = insert block live := if_neg nonnull
  rw [given] at inner
  rw [blocks_append, blocks_append, given, kept _ inner]
  simp only [blocks_cons, blocks_nil, Call.after]
  rw [Set.insert_sdiff_of_mem _ (Set.mem_singleton block), Set.sdiff_singleton_eq_self fresh]

/-- What an honest heap has given out is not excluded. -/
theorem Along.notExcluded (honest : Honest null excluded live calls)
    (initially : ∀ block ∈ live, ¬excluded block) :
    ∀ block ∈ blocks null live calls, ¬excluded block := by
  induction calls generalizing live with
  | nil => exact initially
  | cons call calls inductionHypothesis =>
      obtain ⟨first, rest⟩ := honest
      refine inductionHypothesis rest ?_
      intro block membership
      cases call with
      | alloc given =>
          simp only [Call.after] at membership
          split_ifs at membership with failed
          · exact initially block membership
          · rcases Set.mem_insert_iff.mp membership with rfl | before
            · exact (first.resolve_left failed).2
            · exact initially block before
      | free given => exact initially block membership.1
      | realloc given moved =>
          simp only [Call.after] at membership
          split_ifs at membership with failed
          · exact initially block membership
          · rcases Set.mem_insert_iff.mp membership with rfl | before
            · exact (first.resolve_left failed).2
            · exact initially block before.1

/-! Programs that keep track of owners -/

/-- From any live blocks that `holds` owns, an honest heap makes the calls valid, and
`holds'` owns what is live after them. -/
def Serves (null : Block) (excluded : Block → Prop) (holds : Owner → Block)
    (calls : List (Call Block)) (holds' : Owner → Block) : Prop :=
  ∀ live, Owns null holds live → Honest null excluded live calls →
    Valid null live calls ∧ Owns null holds' (blocks null live calls)

namespace Serves

theorem refl : Serves null excluded holds [] holds := fun _ owns _ => ⟨trivial, owns⟩

theorem trans (first : Serves null excluded holds calls holds')
    (second : Serves null excluded holds' further holds'') :
    Serves null excluded holds (calls ++ further) holds'' := by
  intro live owns honest
  obtain ⟨honestFirst, honestSecond⟩ := along_append.mp honest
  obtain ⟨valid, owns'⟩ := first live owns honestFirst
  obtain ⟨valid', owns''⟩ := second _ owns' honestSecond
  rw [blocks_append]
  exact ⟨along_append.mpr ⟨valid, valid'⟩, owns''⟩

/-- Owners may let go of their blocks without giving them back. -/
theorem fewer (serves : Serves null excluded holds calls holds')
    (kept : ∀ owner, holds'' owner = holds' owner ∨ holds'' owner = null) :
    Serves null excluded holds calls holds'' := by
  intro live owns honest
  obtain ⟨valid, owns'⟩ := serves live owns honest
  exact ⟨valid, owns'.fewer kept⟩

theorem alloc_failed : Serves null excluded holds [.alloc null] holds := by
  intro live owns _
  refine ⟨⟨trivial, trivial⟩, ?_⟩
  simp only [blocks_cons, blocks_nil, Call.after, if_true]
  exact owns

/-- A reallocation that fails leaves the block where it is. -/
theorem realloc_failed {owner : Owner} (held : holds owner = block) :
    Serves null excluded holds [.realloc block null] holds := by
  intro live owns honest
  refine ⟨⟨owns.null_or_live held, trivial⟩, ?_⟩
  simp only [blocks_cons, blocks_nil, Call.after, if_true]
  exact owns

/-- A block that is given back at once. -/
theorem temporary (block : Block) :
    Serves null excluded holds [.alloc block, .free block] holds := by
  intro live owns honest
  by_cases failed : block = null
  · refine ⟨⟨trivial, Or.inl failed, trivial⟩, ?_⟩
    simp only [blocks_cons, blocks_nil, Call.after, if_pos failed]
    refine ⟨fun owner nonnull => ⟨owns.live owner nonnull, fun same => nonnull (same.trans failed)⟩,
      owns.apart⟩
  · have same : blocks null live ([.alloc block] ++ [] ++ [.free block]) = live :=
      blocks_enclosed failed (fun _ _ => rfl) honest
    refine ⟨⟨trivial, Or.inr ?_, trivial⟩, ?_⟩
    · simp only [Call.after, if_neg failed]
      exact Set.mem_insert _ _
    · exact same.symm ▸ owns

variable [DecidableEq Owner]

theorem forget (serves : Serves null excluded holds calls holds') (owner : Owner) :
    Serves null excluded holds calls (Function.update holds' owner null) := by
  intro live owns honest
  obtain ⟨valid, owns'⟩ := serves live owns honest
  exact ⟨valid, owns'.forget owner⟩

theorem alloc (owner : Owner) (block : Block) :
    Serves null excluded holds [.alloc block] (Function.update holds owner block) := by
  intro live owns honest
  refine ⟨⟨trivial, trivial⟩, ?_⟩
  simp only [blocks_cons, blocks_nil, Call.after]
  split_ifs with failed
  · rw [failed]
    exact owns.forget owner
  · exact owns.acquire (honest.1.resolve_left failed).1 owner

/-- What an owner held before an allocation gave it out is not the same block. -/
theorem restore {owner : Owner}
    (serves : Serves null excluded holds (.alloc block :: calls)
      (Function.update holds owner null))
    (own : holds owner = block ∨ holds owner = null) :
    Serves null excluded holds (.alloc block :: calls) holds := by
  intro live owns honest
  have nothing : holds owner = null := by
    by_contra nonnull
    have same := own.resolve_right nonnull
    have fresh := (honest.1.resolve_left (same ▸ nonnull)).1
    rw [← same] at fresh
    exact fresh (owns.live owner nonnull)
  have served := serves live owns honest
  rwa [Function.update_eq_self_iff.mpr nothing.symm] at served

theorem free {owner : Owner} (held : holds owner = block) :
    Serves null excluded holds [.free block] (Function.update holds owner null) := by
  intro live owns honest
  refine ⟨⟨owns.null_or_live held, trivial⟩, ?_⟩
  have released := owns.release owner
  rwa [held] at released

theorem realloc {owner : Owner} (held : holds owner = block) (nonnull : moved ≠ null) :
    Serves null excluded holds [.realloc block moved] (Function.update holds owner moved) := by
  intro live owns honest
  have fresh := (honest.1.resolve_left nonnull).1
  refine ⟨⟨owns.null_or_live held, trivial⟩, ?_⟩
  have released := owns.release owner
  rw [held] at released
  have acquired := released.acquire fresh owner
  rw [Function.update_idem] at acquired
  simp only [blocks_cons, blocks_nil, Call.after, if_neg nonnull]
  exact acquired

end Serves

end HeapLedger
