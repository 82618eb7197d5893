import Nekonix.Library.RadixTable

/-!
# Graded stores of tables

Several roots may share tables, so that no root alone is a tree apart from the
others.  What survives is a grading: every table has one level, and an entry leads
one level down.  The tables of the last level hold leaves.
-/

namespace RadixTable

universe u v w

variable {Table : Type u} {Index : Type v} {Entry : Type w}

/-- The entries of a table of level `n` lead to tables of level `n + 1`, down to the
level `depth` of the leaves. -/
def Graded (format : Format Table Entry) (store : Store Table Index Entry) (depth : Nat)
    (level : Table → Option Nat) : Prop :=
  ∀ table index child height, level table = some height → height < depth →
    next format store table index = some child → level child = some (height + 1)

/-- The entries that are present above the leaves are the same in both stores. -/
def KeepsLinks (format : Format Table Entry) (depth : Nat) (level : Table → Option Nat)
    (store other : Store Table Index Entry) : Prop :=
  ∀ table index height, level table = some height → height < depth →
    format.present (store table index) = true → other table index = store table index

/-- Every level of `level` is one of `other`. -/
def Extends (level other : Table → Option Nat) : Prop :=
  ∀ table height, level table = some height → other table = some height

variable {format : Format Table Entry} {store other : Store Table Index Entry} {depth : Nat}
  {level : Table → Option Nat} {table fresh : Table} {index : Index} {entry empty : Entry}
  {height : Nat}

theorem KeepsLinks.refl (format : Format Table Entry) (depth : Nat) (level : Table → Option Nat)
    (store : Store Table Index Entry) : KeepsLinks format depth level store store :=
  fun _ _ _ _ _ _ => rfl

theorem KeepsLinks.trans {between : Store Table Index Entry} {later : Table → Option Nat}
    (first : KeepsLinks format depth level store between) (extended : Extends level later)
    (second : KeepsLinks format depth later between other) :
    KeepsLinks format depth level store other := by
  intro table index height atLevel above present
  have same := first table index height atLevel above present
  rw [← same] at present ⊢
  exact second table index height (extended table height atLevel) above present

theorem Extends.refl (level : Table → Option Nat) : Extends level level := fun _ _ same => same

theorem Extends.trans {between later : Table → Option Nat} (first : Extends level between)
    (second : Extends between later) : Extends level later :=
  fun table height atLevel => second table height (first table height atLevel)

/-- What is reached from a root is graded by the length of the path. -/
theorem Graded.follow (graded : Graded format store depth level) {root : Table}
    (atRoot : level root = some 0) {path : List Index} (short : path.length ≤ depth)
    (reached : follow format store root path = some table) :
    level table = some path.length := by
  induction path using List.reverseRecOn generalizing table with
  | nil =>
      cases reached
      exact atRoot
  | append_singleton path index inductionHypothesis =>
      rw [List.length_append, List.length_singleton] at short ⊢
      rw [follow_snoc] at reached
      obtain ⟨last, lastReached, further⟩ := Option.bind_eq_some_iff.mp reached
      exact graded last index table path.length
        (inductionHypothesis (Nat.le_of_succ_le short) lastReached) short further

/-- The lengths of the paths grade a tree. -/
theorem IsTree.graded {root : Table} {domain : Domain Index}
    (tree : IsTree format store root domain)
    (within : ∀ path, path ∈ domain ↔ path.length ≤ depth) :
    ∃ level, Graded format store depth level ∧ level root = some 0 ∧
      ∀ table height, level table = some height →
        ∃ path ∈ domain, RadixTable.follow format store root path = some table := by
  classical
  let level : Table → Option Nat := fun table =>
    if found : ∃ path ∈ domain, RadixTable.follow format store root path = some table then
      some found.choose.length
    else none
  have atPath : ∀ path table, path ∈ domain →
      RadixTable.follow format store root path = some table → level table = some path.length := by
    intro path table membership reached
    have found : ∃ path ∈ domain, RadixTable.follow format store root path = some table :=
      ⟨path, membership, reached⟩
    have same := tree found.choose path table found.choose_spec.1 membership found.choose_spec.2
      reached
    change (if found : _ then _ else _) = _
    rw [dif_pos found, same]
  have reachedAt : ∀ table height, level table = some height → ∃ path ∈ domain,
      RadixTable.follow format store root path = some table ∧ path.length = height := by
    intro table height atLevel
    change (if found : _ then _ else _) = _ at atLevel
    split at atLevel
    next found =>
      exact ⟨found.choose, found.choose_spec.1, found.choose_spec.2, Option.some.inj atLevel⟩
    next => cases atLevel
  refine ⟨level, ?_, atPath [] root ((within []).mpr (Nat.zero_le _)) rfl, ?_⟩
  · intro table index child height atLevel above further
    obtain ⟨path, membership, reached, rfl⟩ := reachedAt table height atLevel
    have longer : path ++ [index] ∈ domain := by
      rw [within, List.length_append]
      exact above
    have childReached : RadixTable.follow format store root (path ++ [index]) = some child := by
      rw [follow_snoc, reached]
      exact further
    have found := atPath _ child longer childReached
    rwa [List.length_append, List.length_singleton] at found
  · intro table height atLevel
    obtain ⟨path, membership, reached, -⟩ := reachedAt table height atLevel
    exact ⟨path, membership, reached⟩

section Write

variable [DecidableEq Table] [DecidableEq Index]

/-- An absent entry written over an absent one. -/
theorem Graded.write_absent (graded : Graded format store depth level)
    (unset : format.present entry = false) :
    Graded format (write store table index entry) depth level := by
  intro other position child height atLevel above further
  by_cases same : other = table ∧ position = index
  · obtain ⟨rfl, rfl⟩ := same
    obtain ⟨present, -⟩ := next_eq_some_iff.mp further
    rw [write_same, unset] at present
    cases present
  · apply graded other position child height atLevel above
    simpa only [next, write_other same] using further

/-- A write to a table of leaves. -/
theorem Graded.write_leaf (graded : Graded format store depth level)
    (atLeaves : level table = some depth) :
    Graded format (write store table index entry) depth level := by
  intro other position child height atLevel above further
  have different : other ≠ table := by
    rintro rfl
    rw [atLeaves] at atLevel
    cases atLevel
    exact Nat.lt_irrefl _ above
  apply graded other position child height atLevel above
  have elsewhere : ¬(other = table ∧ position = index) := fun same => different same.1
  simpa only [next, write_other elsewhere] using further

/-- Only a present entry above the leaves is a link. -/
theorem KeepsLinks.write (free : ∀ height, level table = some height → height < depth →
    format.present (store table index) = false) :
    KeepsLinks format depth level store (write store table index entry) := by
  intro other position height atLevel above present
  apply write_other
  rintro ⟨rfl, rfl⟩
  rw [free height atLevel above] at present
  cases present

/-- A blank table without a level may hang below an absent entry. -/
theorem Graded.attach (graded : Graded format store depth level)
    (atTable : level table = some height) (unused : level fresh = none)
    (unset : format.present empty = false) (target : format.target entry = fresh) :
    Graded format (attach store table index fresh empty entry) depth
      (Function.update level fresh (some (height + 1))) := by
  have notFresh : table ≠ fresh := by
    rintro rfl
    rw [unused] at atTable
    cases atTable
  intro other position child otherHeight atLevel above further
  obtain ⟨present, isTarget⟩ := next_eq_some_iff.mp further
  by_cases isFresh : other = fresh
  · subst isFresh
    have elsewhere : ¬(other = table ∧ position = index) := fun same => notFresh same.1.symm
    rw [RadixTable.attach, write_other elsewhere, blank_same, unset] at present
    cases present
  · rw [Function.update_of_ne isFresh] at atLevel
    by_cases here : other = table ∧ position = index
    · obtain ⟨rfl, rfl⟩ := here
      rw [RadixTable.attach, write_same] at isTarget
      rw [atTable] at atLevel
      cases atLevel
      rw [← isTarget, target, Function.update_self]
    · have old : next format store other position = some child := by
        rwa [next, attach_other isFresh here, ← next] at further
      have found := graded other position child otherHeight atLevel above old
      have childOld : child ≠ fresh := by
        rintro rfl
        rw [unused] at found
        cases found
      rw [Function.update_of_ne childOld]
      exact found

theorem KeepsLinks.attach (unused : level fresh = none)
    (absent : format.present (store table index) = false) :
    KeepsLinks format depth level store (attach store table index fresh empty entry) := by
  intro other position height atLevel above present
  apply attach_other
  · rintro rfl
    rw [unused] at atLevel
    cases atLevel
  · rintro ⟨rfl, rfl⟩
    rw [absent] at present
    cases present

theorem Extends.update {height : Nat} (unused : level fresh = none) :
    Extends level (Function.update level fresh (some height)) := by
  intro other otherHeight atLevel
  rw [Function.update_of_ne]
  · exact atLevel
  · rintro rfl
    rw [unused] at atLevel
    cases atLevel

end Write

end RadixTable
