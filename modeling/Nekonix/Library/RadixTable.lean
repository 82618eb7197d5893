import Mathlib.Data.List.Induction
import Mathlib.Data.Option.Basic
import Mathlib.Data.Set.Basic

/-!
# Radix trees held in a store of tables

A store maps a table and an index to an entry; an entry may lead to a further
table.  Paths of indices from a root table address tables and entries.  The
results hold on a prefix-closed set of paths on which the structure is a tree,
that is, no table is reached by two paths.  They say exactly which paths a
single write to the store affects.
-/

namespace RadixTable

universe u v w

variable {Table : Type u} {Index : Type v} {Entry : Type w}

/-- How an entry leads to a table. -/
structure Format (Table : Type u) (Entry : Type w) where
  present : Entry → Bool
  target : Entry → Table

abbrev Store (Table : Type u) (Index : Type v) (Entry : Type w) := Table → Index → Entry

/-- The paths a result is about, closed under taking prefixes. -/
structure Domain (Index : Type v) where
  carrier : Set (List Index)
  closed : ∀ {path index}, path ++ [index] ∈ carrier → path ∈ carrier

instance : Membership (List Index) (Domain Index) :=
  ⟨fun domain path => path ∈ domain.carrier⟩

theorem Domain.prefix_mem {domain : Domain Index} {path : List Index} {index : Index}
    (membership : path ++ [index] ∈ domain) : path ∈ domain :=
  domain.closed membership

/-- The table an entry of `table` leads to, if it is present. -/
def next (format : Format Table Entry) (store : Store Table Index Entry)
    (table : Table) (index : Index) : Option Table :=
  if format.present (store table index) then some (format.target (store table index)) else none

/-- Follow a path of present entries. -/
def follow (format : Format Table Entry) (store : Store Table Index Entry) :
    Table → List Index → Option Table
  | table, [] => some table
  | table, index :: rest =>
      (next format store table index).bind fun child => follow format store child rest

/-- The entry at the end of a path. -/
def entryAt (format : Format Table Entry) (store : Store Table Index Entry)
    (root : Table) (path : List Index) (index : Index) : Option Entry :=
  (follow format store root path).map fun table => store table index

/-- The present entry at the end of a path. -/
def link (format : Format Table Entry) (store : Store Table Index Entry)
    (root : Table) (path : List Index) (index : Index) : Option Entry :=
  (entryAt format store root path index).filter format.present

/-- How many tables of a path do not exist yet. -/
def missing (format : Format Table Entry) (store : Store Table Index Entry) :
    Table → List Index → Nat
  | _, [] => 0
  | table, index :: rest =>
      match next format store table index with
      | none => rest.length + 1
      | some child => missing format store child rest

/-- No table is reached by two paths of the domain. -/
def IsTree (format : Format Table Entry) (store : Store Table Index Entry)
    (root : Table) (domain : Domain Index) : Prop :=
  ∀ first second table, first ∈ domain → second ∈ domain →
    follow format store root first = some table →
    follow format store root second = some table → first = second

variable {format : Format Table Entry} {store : Store Table Index Entry} {root : Table}
  {domain : Domain Index}

@[simp]
theorem follow_nil (table : Table) : follow format store table [] = some table := rfl

@[simp]
theorem follow_cons (table : Table) (index : Index) (rest : List Index) :
    follow format store table (index :: rest) =
      (next format store table index).bind fun child => follow format store child rest := rfl

theorem follow_append (table : Table) (first second : List Index) :
    follow format store table (first ++ second) =
      (follow format store table first).bind fun middle =>
        follow format store middle second := by
  induction first generalizing table with
  | nil => rfl
  | cons index rest inductionHypothesis =>
      cases child : next format store table index with
      | none => simp [child]
      | some middle => simp [child, inductionHypothesis]

theorem follow_snoc (table : Table) (path : List Index) (index : Index) :
    follow format store table (path ++ [index]) =
      (follow format store table path).bind fun last => next format store last index := by
  rw [follow_append]
  congr 1
  funext last
  simp

theorem next_eq_some_iff {table child : Table} {index : Index} :
    next format store table index = some child ↔
      format.present (store table index) = true ∧ format.target (store table index) = child := by
  unfold next
  split <;> simp_all

theorem next_eq_none_iff {table : Table} {index : Index} :
    next format store table index = none ↔ format.present (store table index) = false := by
  unfold next
  split <;> simp_all

theorem link_eq_some_iff {path : List Index} {index : Index} {entry : Entry} :
    link format store root path index = some entry ↔
      entryAt format store root path index = some entry ∧ format.present entry = true := by
  simp [link, Option.filter_eq_some_iff]

theorem link_of_follow {path : List Index} {table : Table}
    (reached : follow format store root path = some table) (index : Index) :
    link format store root path index =
      if format.present (store table index) then some (store table index) else none := by
  simp [link, entryAt, reached, Option.filter]

/-- A path goes on below the link at its end. -/
theorem follow_snoc_eq_link (path : List Index) (index : Index) :
    follow format store root (path ++ [index]) =
      (link format store root path index).map format.target := by
  rw [follow_snoc]
  cases reached : follow format store root path with
  | none => simp [link, entryAt, reached]
  | some table =>
      rw [link_of_follow reached, Option.bind_some, next]
      split <;> rfl

theorem link_eq_none_iff {path : List Index} {index : Index} :
    link format store root path index = none ↔
      follow format store root (path ++ [index]) = none := by
  rw [follow_snoc_eq_link, Option.map_eq_none_iff]

theorem missing_snoc (table : Table) (path : List Index) (index : Index) :
    missing format store table (path ++ [index]) =
      missing format store table path +
        if follow format store table (path ++ [index]) = none then 1 else 0 := by
  induction path generalizing table with
  | nil =>
      cases child : next format store table index <;> simp [missing, child]
  | cons first rest inductionHypothesis =>
      cases child : next format store table first with
      | none => simp [missing, child]
      | some middle => simpa [missing, child] using inductionHypothesis middle

/-- Stores that agree on the links along the paths of a domain reach the same tables. -/
theorem follow_congr {other : Store Table Index Entry}
    (agree : ∀ path index table, path ++ [index] ∈ domain →
      follow format store root path = some table →
      next format other table index = next format store table index)
    {path : List Index} (membership : path ∈ domain) :
    follow format other root path = follow format store root path := by
  induction path using List.reverseRecOn with
  | nil => rfl
  | append_singleton path index inductionHypothesis =>
      rw [follow_snoc, follow_snoc, inductionHypothesis (domain.prefix_mem membership)]
      cases reached : follow format store root path with
      | none => rfl
      | some table => simpa using agree path index table membership reached

theorem IsTree.congr {other : Store Table Index Entry}
    (tree : IsTree format store root domain)
    (same : ∀ path ∈ domain, follow format other root path = follow format store root path) :
    IsTree format other root domain := by
  intro first second table firstIn secondIn firstReached secondReached
  rw [same first firstIn] at firstReached
  rw [same second secondIn] at secondReached
  exact tree first second table firstIn secondIn firstReached secondReached

section Write

variable [DecidableEq Table] [DecidableEq Index]

/-- Replace one entry. -/
def write (store : Store Table Index Entry) (table : Table) (index : Index) (entry : Entry) :
    Store Table Index Entry :=
  fun other position => if other = table ∧ position = index then entry else store other position

/-- Set every entry of a table to `entry`. -/
def blank (store : Store Table Index Entry) (table : Table) (entry : Entry) :
    Store Table Index Entry :=
  fun other position => if other = table then entry else store other position

@[simp]
theorem write_same (table : Table) (index : Index) (entry : Entry) :
    write store table index entry table index = entry := by
  simp [write]

omit [DecidableEq Index] in
@[simp]
theorem blank_same (table : Table) (index : Index) (entry : Entry) :
    blank store table entry table index = entry := by
  simp [blank]

theorem write_other {table other : Table} {index position : Index} {entry : Entry}
    (different : ¬(other = table ∧ position = index)) :
    write store table index entry other position = store other position := by
  simp [write, different]

variable {path : List Index} {index : Index} {table : Table} {entry : Entry}

/-- Where a write leaves the tables reached as they were, it changes the one
entry at its own path. -/
theorem entryAt_write (tree : IsTree format store root domain) (inDomain : path ∈ domain)
    (reached : follow format store root path = some table)
    {other : List Index} {position : Index} (otherIn : other ∈ domain)
    (same : follow format (write store table index entry) root other =
      follow format store root other) :
    entryAt format (write store table index entry) root other position =
      if other = path ∧ position = index then some entry
      else entryAt format store root other position := by
  unfold entryAt
  rw [same]
  cases otherReached : follow format store root other with
  | none =>
      have different : ¬(other = path ∧ position = index) := by
        rintro ⟨rfl, -⟩
        simp [reached] at otherReached
      simp [different]
  | some last =>
      have locate : last = table ↔ other = path := by
        constructor
        · rintro rfl
          exact tree other path last otherIn inDomain otherReached reached
        · rintro rfl
          exact Option.some.inj (otherReached.symm.trans reached)
      simp only [Option.map_some, write, locate]
      split <;> rfl

/-- Writing an entry that no path of the domain goes through moves no table. -/
theorem follow_write_leaf (tree : IsTree format store root domain) (inDomain : path ∈ domain)
    (reached : follow format store root path = some table)
    (leaf : path ++ [index] ∉ domain) {other : List Index} (otherIn : other ∈ domain) :
    follow format (write store table index entry) root other =
      follow format store root other := by
  refine follow_congr ?_ otherIn
  intro before position last membership lastReached
  have different : ¬(last = table ∧ position = index) := by
    rintro ⟨rfl, rfl⟩
    have same := tree before path last (domain.prefix_mem membership) inDomain lastReached reached
    exact leaf (same ▸ membership)
  simp only [next, write_other different]

/-- Writing an absent entry over an absent one moves no table. -/
theorem follow_write_absent (absent : next format store table index = none)
    (unset : format.present entry = false) (other : List Index) :
    follow format (write store table index entry) root other =
      follow format store root other := by
  let everything : Domain Index := ⟨Set.univ, fun _ => trivial⟩
  have otherIn : other ∈ everything := trivial
  refine follow_congr ?_ otherIn
  intro before position last _ _
  by_cases same : last = table ∧ position = index
  · obtain ⟨rfl, rfl⟩ := same
    rw [absent, next_eq_none_iff, write_same, unset]
  · simp only [next, write_other same]

/-- What it takes to hang a blank table below an absent entry. -/
structure Attachable (format : Format Table Entry) (store : Store Table Index Entry)
    (root : Table) (domain : Domain Index) (path : List Index) (index : Index)
    (table fresh : Table) (empty entry : Entry) : Prop where
  tree : IsTree format store root domain
  membership : path ++ [index] ∈ domain
  reached : follow format store root path = some table
  absent : next format store table index = none
  unused : ∀ other ∈ domain, follow format store root other ≠ some fresh
  empty : format.present empty = false
  present : format.present entry = true
  target : format.target entry = fresh

variable {fresh : Table} {empty : Entry}

/-- The store with `fresh` blanked and linked. -/
def attach (store : Store Table Index Entry) (table : Table) (index : Index) (fresh : Table)
    (empty entry : Entry) : Store Table Index Entry :=
  write (blank store fresh empty) table index entry

omit [DecidableEq Table] [DecidableEq Index] in
theorem Attachable.table_ne (able : Attachable format store root domain path index table fresh
    empty entry) : table ≠ fresh :=
  fun same => able.unused path (domain.prefix_mem able.membership) (same ▸ able.reached)

theorem Attachable.attach_fresh (able : Attachable format store root domain path index table fresh
    empty entry) (position : Index) :
    attach store table index fresh empty entry fresh position = empty := by
  have different : ¬(fresh = table ∧ position = index) := fun same => able.table_ne same.1.symm
  rw [attach, write_other different, blank_same]

theorem attach_other {other : Table} {position : Index} (notFresh : other ≠ fresh)
    (different : ¬(other = table ∧ position = index)) :
    attach store table index fresh empty entry other position = store other position := by
  rw [attach, write_other different]
  simp [blank, notFresh]

/-- Attaching adds the one path that ends in the new table. -/
theorem Attachable.follow_attach (able : Attachable format store root domain path index table
    fresh empty entry) {other : List Index} (otherIn : other ∈ domain) :
    follow format (attach store table index fresh empty entry) root other =
      if other = path ++ [index] then some fresh else follow format store root other := by
  induction other using List.reverseRecOn with
  | nil => simp
  | append_singleton before position inductionHypothesis =>
      have beforeIn := domain.prefix_mem otherIn
      have pathIn := domain.prefix_mem able.membership
      rw [follow_snoc, follow_snoc, inductionHypothesis beforeIn]
      by_cases atNew : before = path ++ [index]
      · subst atNew
        have deadEnd : next format (attach store table index fresh empty entry) fresh position =
            none := by
          rw [next_eq_none_iff, able.attach_fresh, able.empty]
        have longer : ¬(path ++ [index] ++ [position] = path ++ [index]) := by
          intro same
          simpa using congrArg List.length same
        rw [if_pos rfl, if_neg longer, follow_snoc, able.reached]
        simp [deadEnd, able.absent]
      · rw [if_neg atNew]
        cases beforeReached : follow format store root before with
        | none =>
            have notPath : ¬(before ++ [position] = path ++ [index]) := by
              intro same
              have split := List.append_inj' same rfl
              rw [split.1, able.reached] at beforeReached
              cases beforeReached
            simp [notPath]
        | some last =>
            have notFresh : last ≠ fresh :=
              fun same => able.unused before beforeIn (same ▸ beforeReached)
            have locate : before ++ [position] = path ++ [index] ↔
                last = table ∧ position = index := by
              constructor
              · intro same
                obtain ⟨rfl, samePosition⟩ := List.append_inj' same rfl
                exact ⟨Option.some.inj (beforeReached.symm.trans able.reached),
                  List.singleton_inj.mp samePosition⟩
              · rintro ⟨rfl, rfl⟩
                rw [able.tree before path last beforeIn pathIn beforeReached able.reached]
            simp only [Option.bind_some, locate]
            by_cases here : last = table ∧ position = index
            · obtain ⟨rfl, rfl⟩ := here
              rw [if_pos ⟨rfl, rfl⟩, next_eq_some_iff, attach, write_same]
              exact ⟨able.present, able.target⟩
            · rw [if_neg here]
              simp only [next, attach_other notFresh here]

theorem Attachable.isTree_attach (able : Attachable format store root domain path index table
    fresh empty entry) :
    IsTree format (attach store table index fresh empty entry) root domain := by
  intro first second last firstIn secondIn firstReached secondReached
  rw [able.follow_attach firstIn] at firstReached
  rw [able.follow_attach secondIn] at secondReached
  split at firstReached
  next firstNew =>
    split at secondReached
    next secondNew => rw [firstNew, secondNew]
    next =>
      cases firstReached
      exact (able.unused second secondIn secondReached).elim
  next =>
    split at secondReached
    next =>
      cases secondReached
      exact (able.unused first firstIn firstReached).elim
    next => exact able.tree first second last firstIn secondIn firstReached secondReached

/-- Attaching changes the linking entry, and adds the entries of the new table. -/
theorem Attachable.entryAt_attach (able : Attachable format store root domain path index table
    fresh empty entry) {other : List Index} {position : Index} (otherIn : other ∈ domain) :
    entryAt format (attach store table index fresh empty entry) root other position =
      if other = path ++ [index] then some empty
      else if other = path ∧ position = index then some entry
      else entryAt format store root other position := by
  unfold entryAt
  rw [able.follow_attach otherIn]
  by_cases atNew : other = path ++ [index]
  · simp [atNew, able.attach_fresh]
  · rw [if_neg atNew, if_neg atNew]
    have pathIn := domain.prefix_mem able.membership
    cases reached : follow format store root other with
    | none =>
        have different : ¬(other = path ∧ position = index) := by
          rintro ⟨rfl, -⟩
          simp [able.reached] at reached
        simp [different]
    | some last =>
        have notFresh : last ≠ fresh := fun same => able.unused other otherIn (same ▸ reached)
        have locate : last = table ↔ other = path := by
          constructor
          · rintro rfl
            exact able.tree other path last otherIn pathIn reached able.reached
          · rintro rfl
            exact Option.some.inj (reached.symm.trans able.reached)
        by_cases here : other = path ∧ position = index
        · obtain ⟨rfl, rfl⟩ := here
          have same := locate.mpr rfl
          subst same
          rw [if_pos ⟨rfl, rfl⟩, Option.map_some, attach, write_same]
        · rw [if_neg here, Option.map_some, Option.map_some,
            attach_other notFresh (fun same => here ⟨locate.mp same.1, same.2⟩)]

theorem Attachable.link_attach (able : Attachable format store root domain path index table
    fresh empty entry) {other : List Index} {position : Index} (otherIn : other ∈ domain) :
    link format (attach store table index fresh empty entry) root other position =
      if other = path ∧ position = index then some entry
      else link format store root other position := by
  rw [link, able.entryAt_attach otherIn]
  by_cases atNew : other = path ++ [index]
  · have different : ¬(other = path ∧ position = index) := by
      rintro ⟨same, -⟩
      simpa [same] using congrArg List.length atNew
    have before : follow format store root (path ++ [index]) = none := by
      rw [follow_snoc, able.reached, Option.bind_some, able.absent]
    rw [if_pos atNew, if_neg different, link_eq_none_iff.mpr]
    · simp [Option.filter, able.empty]
    · rw [follow_snoc, atNew, before, Option.bind_none]
  · rw [if_neg atNew]
    split
    · simp [Option.filter, able.present]
    · rfl

/-- What creating the missing tables of a path does: `created` are the new
tables, and each new link carries `mark`. -/
structure Grown (format : Format Table Entry) (root : Table) (domain : Domain Index)
    (empty : Entry) (mark : Entry → Prop) (path : List Index) (created : List Table)
    (store grown : Store Table Index Entry) : Prop where
  tree : IsTree format grown root domain
  reaches : ∃ table, follow format grown root path = some table
  count : created.length = missing format store root path
  kept : ∀ other ∈ domain, ∀ table, follow format store root other = some table →
    follow format grown root other = some table
  origin : ∀ other ∈ domain, ∀ table, follow format grown root other = some table →
    follow format store root other = some table ∨ table ∈ created
  value : ∀ other ∈ domain, ∀ position, other ++ [position] ∉ domain →
    (entryAt format grown root other position).getD empty =
      (entryAt format store root other position).getD empty
  linkKept : ∀ other position entry, other ++ [position] ∈ domain →
    link format store root other position = some entry →
    link format grown root other position = some entry
  linkNew : ∀ other position, other ++ [position] ∈ domain →
    link format store root other position = none → other ++ [position] <+: path →
    ∃ entry, link format grown root other position = some entry ∧ mark entry
  linkNone : ∀ other position, other ++ [position] ∈ domain →
    link format store root other position = none → ¬other ++ [position] <+: path →
    link format grown root other position = none
  untouched : ∀ table, table ∉ created →
    (∀ other position, other ++ [position] <+: path →
      follow format store root other ≠ some table) →
    grown table = store table

variable {mark : Entry → Prop} {created : List Table} {grown : Store Table Index Entry}

omit [DecidableEq Table] [DecidableEq Index] in
theorem Grown.refl (tree : IsTree format store root domain) :
    Grown format root domain empty mark [] [] store store where
  tree := tree
  reaches := ⟨root, rfl⟩
  count := rfl
  kept := fun _ _ _ reached => reached
  origin := fun _ _ _ reached => Or.inl reached
  value := fun _ _ _ _ => rfl
  linkKept := fun _ _ _ _ linked => linked
  linkNew := by simp
  linkNone := fun _ _ _ unlinked _ => unlinked
  untouched := fun _ _ _ => rfl

omit [DecidableEq Table] [DecidableEq Index] in
/-- A link absent before and off the path so far is still absent. -/
theorem Grown.absent_iff (growth : Grown format root domain empty mark path created store grown)
    (membership : path ++ [index] ∈ domain) (reached : follow format grown root path = some table) :
    next format grown table index = none ↔ link format store root path index = none := by
  have nextLink : next format grown table index = none ↔
      link format grown root path index = none := by
    rw [link_eq_none_iff, follow_snoc, reached, Option.bind_some]
  rw [nextLink]
  constructor
  · intro absent
    cases before : link format store root path index with
    | none => rfl
    | some entry =>
        rw [growth.linkKept path index entry membership before] at absent
        cases absent
  · intro absent
    apply growth.linkNone path index membership absent
    intro isPrefix
    have shorter := isPrefix.length_le
    rw [List.length_append, List.length_singleton] at shorter
    omega

omit [DecidableEq Table] [DecidableEq Index] in
/-- Going one level further through a link that is there. -/
theorem Grown.present (growth : Grown format root domain empty mark path created store grown)
    (membership : path ++ [index] ∈ domain) (reached : follow format grown root path = some table)
    {child : Table} (linked : next format grown table index = some child) :
    Grown format root domain empty mark (path ++ [index]) created store grown where
  tree := growth.tree
  reaches := ⟨child, by rw [follow_snoc, reached, Option.bind_some, linked]⟩
  count := by
    have before : link format store root path index ≠ none := by
      rw [Ne, ← growth.absent_iff membership reached, linked]
      simp
    rw [missing_snoc, if_neg (fun absent => before (link_eq_none_iff.mpr absent)), growth.count,
      Nat.add_zero]
  kept := growth.kept
  origin := growth.origin
  value := growth.value
  linkKept := growth.linkKept
  linkNew := by
    intro other position otherIn unlinked isPrefix
    rcases List.prefix_concat_iff.mp isPrefix with whole | shorter
    · obtain ⟨rfl, same⟩ := List.append_inj' whole rfl
      obtain rfl := List.singleton_inj.mp same
      rw [← growth.absent_iff membership reached, linked] at unlinked
      cases unlinked
    · exact growth.linkNew other position otherIn unlinked shorter
  linkNone := by
    intro other position otherIn unlinked notPrefix
    apply growth.linkNone other position otherIn unlinked
    exact fun isPrefix => notPrefix (isPrefix.trans (List.prefix_append _ _))
  untouched := by
    intro last notCreated off
    apply growth.untouched last notCreated
    intro other position isPrefix
    exact off other position (isPrefix.trans (List.prefix_append _ _))

/-- Going one level further through a link that has to be made. -/
theorem Grown.attach (growth : Grown format root domain empty mark path created store grown)
    (able : Attachable format grown root domain path index table fresh empty entry)
    (marked : mark entry) :
    Grown format root domain empty mark (path ++ [index]) (created ++ [fresh]) store
      (attach grown table index fresh empty entry) := by
  have unlinked : link format store root path index = none :=
    (growth.absent_iff able.membership able.reached).mp able.absent
  have deadBefore : follow format store root (path ++ [index]) = none :=
    link_eq_none_iff.mp unlinked
  have deadGrown : follow format grown root (path ++ [index]) = none := by
    rw [follow_snoc, able.reached, Option.bind_some, able.absent]
  have atLink {other : List Index} {position : Index} (whole : other ++ [position] = path ++ [index]) :
      other = path ∧ position = index := by
    obtain ⟨same, samePosition⟩ := List.append_inj' whole rfl
    exact ⟨same, List.singleton_inj.mp samePosition⟩
  refine
    { tree := able.isTree_attach
      reaches := ⟨fresh, by rw [able.follow_attach able.membership, if_pos rfl]⟩
      count := ?count
      kept := ?kept
      origin := ?origin
      value := ?value
      linkKept := ?linkKept
      linkNew := ?linkNew
      linkNone := ?linkNone
      untouched := ?untouched }
  case count =>
    rw [missing_snoc, if_pos deadBefore, List.length_append, growth.count, List.length_singleton]
  case kept =>
    intro other otherIn last reached
    have kept := growth.kept other otherIn last reached
    have notNew : other ≠ path ++ [index] := by
      rintro rfl
      rw [deadGrown] at kept
      cases kept
    rw [able.follow_attach otherIn, if_neg notNew]
    exact kept
  case origin =>
    intro other otherIn last reached
    rw [able.follow_attach otherIn] at reached
    split at reached
    next =>
      cases reached
      exact Or.inr (by simp)
    next =>
      rcases growth.origin other otherIn last reached with before | new
      · exact Or.inl before
      · exact Or.inr (List.mem_append_left _ new)
  case value =>
    intro other otherIn position leaf
    rw [able.entryAt_attach otherIn]
    by_cases atNew : other = path ++ [index]
    · rw [if_pos atNew, atNew, entryAt, deadBefore]
      rfl
    · have different : ¬(other = path ∧ position = index) := by
        rintro ⟨rfl, rfl⟩
        exact leaf able.membership
      rw [if_neg atNew, if_neg different]
      exact growth.value other otherIn position leaf
  case linkKept =>
    intro other position last otherIn linked
    have different : ¬(other = path ∧ position = index) := by
      rintro ⟨rfl, rfl⟩
      rw [unlinked] at linked
      cases linked
    rw [able.link_attach (domain.prefix_mem otherIn), if_neg different]
    exact growth.linkKept other position last otherIn linked
  case linkNew =>
    intro other position otherIn absent isPrefix
    rw [able.link_attach (domain.prefix_mem otherIn)]
    by_cases here : other = path ∧ position = index
    · exact ⟨entry, if_pos here, marked⟩
    · rcases List.prefix_concat_iff.mp isPrefix with whole | shorter
      · exact (here (atLink whole)).elim
      · rw [if_neg here]
        exact growth.linkNew other position otherIn absent shorter
  case linkNone =>
    intro other position otherIn absent notPrefix
    have different : ¬(other = path ∧ position = index) := by
      rintro ⟨rfl, rfl⟩
      exact notPrefix (List.prefix_refl _)
    rw [able.link_attach (domain.prefix_mem otherIn), if_neg different]
    apply growth.linkNone other position otherIn absent
    exact fun isPrefix => notPrefix (isPrefix.trans (List.prefix_append _ _))
  case untouched =>
    intro last notCreated off
    have notOld : last ∉ created := fun old => notCreated (List.mem_append_left _ old)
    have notFresh : last ≠ fresh := by
      rintro rfl
      exact notCreated (by simp)
    have notTable : last ≠ table := by
      rintro rfl
      have pathIn := domain.prefix_mem able.membership
      rcases growth.origin path pathIn last able.reached with before | new
      · exact off path index (List.prefix_refl _) before
      · exact notOld new
    have same : RadixTable.attach grown table index fresh empty entry last = grown last := by
      funext position
      exact attach_other notFresh (fun here => notTable here.1)
    rw [same]
    apply growth.untouched last notOld
    intro other position isPrefix
    exact off other position (isPrefix.trans (List.prefix_append _ _))

end Write

end RadixTable
