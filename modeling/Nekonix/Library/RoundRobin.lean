import Mathlib.Data.List.Induction
import Mathlib.Data.List.Rotate

/-!
# Round robin

A waiting line whose first member is served next and then waits at the end, and
whose last member, the one being served, may leave.  When the member that is due
next takes the place of the one that leaves, its own turn is passed over.

A log keeps the members served, each with those present at the time.
-/

namespace RoundRobin

universe u

variable {α : Type u} {line rest present : List α} {log : List (α × List α)}
  {member other last : α}

/-- `other` has been served after each time that `member` was. -/
def Since (log : List (α × List α)) (member other : α) : Prop :=
  ∀ before present after, log = before ++ (member, present) :: after →
    other ∈ after.map Prod.fst

/-- Between two services of one member in a row, everyone who is present at both is
served. -/
def NoBypass (log : List (α × List α)) : Prop :=
  ∀ before member present between present' after,
    log = before ++ (member, present) :: (between ++ (member, present') :: after) →
    member ∉ between.map Prod.fst →
    ∀ other ∈ present, other ∈ present' → other ≠ member → other ∈ between.map Prod.fst

/-- Who waits longer was served less recently. -/
structure Fair (line : List α) (log : List (α × List α)) : Prop where
  nodup : line.Nodup
  order : line.Pairwise (Since log)
  present : ∀ entry ∈ log, ∀ member ∈ line, member ∈ entry.2
  noBypass : NoBypass log

theorem Fair.start (nodup : line.Nodup) : Fair line ([] : List (α × List α)) where
  nodup := nodup
  order := by
    apply List.pairwise_of_forall
    intro member other before present after same
    exact absurd same.symm (by simp)
  present := by simp
  noBypass := by
    intro before member present between present' after same
    exact absurd same.symm (by simp)

theorem Fair.none (noBypass : NoBypass log) : Fair [] log where
  nodup := List.nodup_nil
  order := List.Pairwise.nil
  present := by simp
  noBypass := noBypass

/-- The end of a log with one more entry. -/
theorem split_snoc {entry added : α × List α} {before after : List (α × List α)}
    (same : log ++ [added] = before ++ entry :: after) :
    (after = [] ∧ entry = added ∧ log = before) ∨
      ∃ earlier, after = earlier ++ [added] ∧ log = before ++ entry :: earlier := by
  rcases List.eq_nil_or_concat after with rfl | ⟨earlier, lastEntry, rfl⟩
  · obtain ⟨isLog, isEntry⟩ := List.append_inj' same rfl
    exact Or.inl ⟨rfl, (List.cons.inj isEntry).1.symm, isLog⟩
  · rw [List.concat_eq_append, ← List.cons_append, ← List.append_assoc] at same
    obtain ⟨isLog, isEntry⟩ := List.append_inj' same rfl
    exact Or.inr ⟨earlier, by rw [List.concat_eq_append, (List.cons.inj isEntry).1], isLog⟩

theorem Since.of_unserved (unserved : member ∉ log.map Prod.fst) : Since log member other := by
  rintro before present after rfl
  simp at unserved

theorem Since.serve (since : Since log member other) (different : member ≠ last) :
    Since (log ++ [(last, present)]) member other := by
  intro before present' after same
  rcases split_snoc same with ⟨-, isLast, -⟩ | ⟨earlier, rfl, isLog⟩
  · exact absurd (congrArg Prod.fst isLast) different
  · rw [List.map_append]
    exact List.mem_append_left _ (since _ _ _ isLog)

theorem Since.served (different : member ≠ last) :
    Since (log ++ [(last, present)]) member last := by
  intro before present' after same
  rcases split_snoc same with ⟨-, isLast, -⟩ | ⟨earlier, rfl, -⟩
  · exact absurd (congrArg Prod.fst isLast) different
  · simp

/-- The first in line is served. -/
theorem Fair.serve (fair : Fair (member :: rest) log)
    (everyone : ∀ other, other ∈ present ↔ other ∈ member :: rest) :
    Fair (rest ++ [member]) (log ++ [(member, present)]) := by
  obtain ⟨notInRest, restNodup⟩ := List.nodup_cons.mp fair.nodup
  obtain ⟨sinceMember, restOrder⟩ := List.pairwise_cons.mp fair.order
  have different : ∀ other ∈ rest, other ≠ member := by
    rintro other inRest rfl
    exact notInRest inRest
  have sameLine : ∀ other, other ∈ rest ++ [member] ↔ other ∈ member :: rest := by
    intro other
    rw [List.mem_append, List.mem_singleton, List.mem_cons, or_comm]
  refine ⟨?_, ?_, ?_, ?_⟩
  · apply List.nodup_append.mpr
    refine ⟨restNodup, List.pairwise_singleton _ _, ?_⟩
    intro other inRest last isMember
    rw [List.mem_singleton.mp isMember]
    exact different other inRest
  · apply List.pairwise_append.mpr
    refine ⟨?_, List.pairwise_singleton _ _, ?_⟩
    · exact restOrder.imp_of_mem fun firstIn _ since => since.serve (different _ firstIn)
    · intro other inRest last isMember
      rw [List.mem_singleton.mp isMember]
      exact .served (different other inRest)
  · intro entry membership other inLine
    rcases List.mem_append.mp membership with earlier | isLast
    · exact fair.present entry earlier other ((sameLine other).mp inLine)
    · rw [List.mem_singleton.mp isLast]
      exact (everyone other).mpr ((sameLine other).mp inLine)
  · intro before served first between second after same notBetween other inFirst inSecond notServed
    rw [← List.cons_append, ← List.append_assoc] at same
    rcases split_snoc same with ⟨rfl, isLast, isLog⟩ | ⟨earlier, rfl, isLog⟩
    · -- the second service is the new one: everyone else has waited longer
      obtain ⟨rfl, rfl⟩ := Prod.mk.inj isLast
      rcases List.mem_cons.mp ((everyone other).mp inSecond) with isServed | inRest
      · exact absurd isServed notServed
      · exact sinceMember other inRest _ _ _ isLog
    · rw [List.append_assoc, List.cons_append] at isLog
      exact fair.noBypass _ _ _ _ _ _ isLog notBetween other inFirst inSecond notServed

/-- The last in line leaves, and the first passes its turn: fair where nobody else
has been served. -/
theorem Fair.leave (fair : Fair (member :: (rest ++ [last])) log)
    (unserved : ∀ other ∈ rest, other ∉ log.map Prod.fst) : Fair (rest ++ [member]) log := by
  obtain ⟨notInRest, restNodup⟩ := List.nodup_cons.mp fair.nodup
  refine ⟨?_, ?_, ?_, fair.noBypass⟩
  · apply List.nodup_append.mpr
    refine ⟨(List.nodup_append.mp restNodup).1, List.pairwise_singleton _ _, ?_⟩
    rintro other inRest found isMember rfl
    rw [List.mem_singleton.mp isMember] at inRest
    exact notInRest (List.mem_append_left _ inRest)
  · apply List.pairwise_append.mpr
    refine ⟨?_, List.pairwise_singleton _ _, ?_⟩
    · apply List.Pairwise.imp_of_mem (R := fun _ _ => True)
      · exact fun firstIn _ _ => .of_unserved (unserved _ firstIn)
      · exact List.pairwise_of_forall fun _ _ => trivial
    · exact fun other inRest _ _ => .of_unserved (unserved other inRest)
  · intro entry membership other inLine
    apply fair.present entry membership
    rcases List.mem_append.mp inLine with inRest | isMember
    · exact List.mem_cons_of_mem _ (List.mem_append_left _ inRest)
    · rw [List.mem_singleton.mp isMember]
      exact List.mem_cons_self

/-- The last time that a member was served. -/
theorem exists_last (served : member ∈ log.map Prod.fst) :
    ∃ before present after, log = before ++ (member, present) :: after ∧
      member ∉ after.map Prod.fst := by
  induction log using List.reverseRecOn with
  | nil => cases served
  | append_singleton log entry inductionHypothesis =>
      by_cases here : entry.1 = member
      · subst here
        exact ⟨log, entry.2, [], rfl, List.not_mem_nil⟩
      · have earlier : member ∈ log.map Prod.fst := by
          rw [List.map_append, List.mem_append] at served
          rcases served with earlier | isEntry
          · exact earlier
          · exact absurd (List.mem_singleton.mp isEntry).symm here
        obtain ⟨before, present, after, rfl, notAfter⟩ := inductionHypothesis earlier
        refine ⟨before, present, after ++ [entry], by simp, ?_⟩
        rw [List.map_append, List.mem_append]
        rintro (inAfter | isEntry)
        · exact notAfter inAfter
        · exact here (List.mem_singleton.mp isEntry).symm

/-- Otherwise the first in line is bypassed: whoever of the others was served already
is served again before it. -/
theorem Fair.bypass (fair : Fair (member :: rest) log) (otherIn : other ∈ rest)
    (served : other ∈ log.map Prod.fst) {later : List (α × List α)}
    (passed : member ∉ later.map Prod.fst) (once : other ∉ later.map Prod.fst)
    (inPresent : member ∈ present) : ¬NoBypass (log ++ (later ++ [(other, present)])) := by
  intro noBypass
  obtain ⟨notInRest, -⟩ := List.nodup_cons.mp fair.nodup
  obtain ⟨sinceMember, -⟩ := List.pairwise_cons.mp fair.order
  obtain ⟨before, first, after, rfl, notAfter⟩ := exists_last served
  -- `member` has waited since before then
  have notMember : member ∉ after.map Prod.fst := by
    intro membership
    obtain ⟨⟨found, present'⟩, inAfter, rfl⟩ := List.mem_map.mp membership
    obtain ⟨early, late, rfl⟩ := List.append_of_mem inAfter
    apply notAfter
    rw [List.map_append, List.map_cons]
    have since := sinceMember other otherIn (before ++ (other, first) :: early) present' late
      (by simp)
    exact List.mem_append_right _ (List.mem_cons_of_mem _ since)
  have bypassed := noBypass before other first (after ++ later) present [] (by simp)
    (by
      rw [List.map_append, List.mem_append]
      exact fun either => either.elim notAfter once)
    member (fair.present (other, first) (by simp) member List.mem_cons_self) inPresent
    (by
      rintro rfl
      exact notInRest otherIn)
  rw [List.map_append, List.mem_append] at bypassed
  exact bypassed.elim notMember passed

/-! The line as a table with an index to the member that is being served -/

/-- The members in the order in which they are due. -/
def lineOf (table : List α) (index : Nat) : List α := table.rotate (index + 1)

variable {table : List α} {index : Nat}

/-- The index moves on to the first in line. -/
theorem lineOf_serve (line : lineOf table index = member :: rest) (inside : index < table.length) :
    table[(index + 1) % table.length]? = some member ∧
      lineOf table ((index + 1) % table.length) = rest ++ [member] := by
  have bound : (index + 1) % table.length < table.length := Nat.mod_lt _ (by omega)
  have shifted : table.rotate ((index + 1) % table.length) = member :: rest := by
    rw [List.rotate_mod]
    exact line
  constructor
  · rw [← List.head?_rotate bound, shifted, List.head?_cons]
  · rw [lineOf, ← List.rotate_rotate, shifted, List.rotate_cons_succ, List.rotate_zero]

/-- The member at the index leaves, and the first in line takes its place. -/
theorem lineOf_leave (inside : index < table.length) (several : 2 ≤ table.length) :
    ∃ member rest last, table[index]? = some last ∧
      lineOf table index = member :: (rest ++ [last]) ∧
      lineOf (table.eraseIdx index) (index % (table.length - 1)) = rest ++ [member] := by
  obtain ⟨before, last, after, rfl, rfl⟩ :
      ∃ before last after, table = before ++ last :: after ∧ before.length = index :=
    ⟨table.take index, table[index], table.drop (index + 1),
      by rw [← List.drop_eq_getElem_cons inside, List.take_append_drop],
      List.length_take_of_le inside.le⟩
  have line : lineOf (before ++ last :: after) before.length = after ++ (before ++ [last]) := by
    have moved := List.rotate_append_length_eq (before ++ [last]) after
    rwa [List.length_append, List.length_singleton, List.append_assoc,
      List.singleton_append] at moved
  have erased : (before ++ last :: after).eraseIdx before.length = before ++ after := by
    rw [List.eraseIdx_append_of_length_le le_rfl, Nat.sub_self, List.eraseIdx_cons_zero]
  rw [line, erased]
  rw [List.length_append, List.length_cons] at several ⊢
  cases after with
  | nil =>
      -- the index was at the end: it starts again
      cases before with
      | nil => simp at several
      | cons first before =>
          refine ⟨first, before, last, by simp, by simp, ?_⟩
          rw [List.length_nil, Nat.zero_add, Nat.add_sub_cancel, Nat.mod_self]
          simp [lineOf]
  | cons first after =>
      refine ⟨first, after ++ before, last, by simp, by simp, ?_⟩
      have stays : before.length % (before.length + ((first :: after).length + 1) - 1) =
          before.length := by
        apply Nat.mod_eq_of_lt
        simp
      have moved := List.rotate_append_length_eq (before ++ [first]) after
      rw [List.length_append, List.length_singleton, List.append_assoc,
        List.singleton_append] at moved
      rw [stays, lineOf, moved, List.append_assoc]

end RoundRobin
