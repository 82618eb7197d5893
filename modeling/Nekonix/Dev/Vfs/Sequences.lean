import Nekonix.Dev.Vfs.Children

/-!
# Child lists are sequences

What the operations on the children of a vnode do to the sequence of them, for any heap:
creation appends, removal erases, and each of the two leads one link elsewhere.
-/

namespace Nekonix

open LinkedList

variable {vfs next : Vfs} {parent node made : U64} {before after list : List U64} {vnode : Vnode}

/-- `made` has been appended to the children of `parent`: one link leads to it now. -/
structure ChildAppended (vfs : Vfs) (parent : U64) (list : List U64) (made : U64) (next : Vfs) :
    Prop where
  fresh : vfs.vnodes made = none
  below : ∃ vnode, next.vnodes made = some vnode ∧ vnode.parent = parent
  children : LiveChildren next.vnodes parent (list ++ [made])
  others : ∀ other, other ≠ made → next.vnodes other = relink vfs.vnodes parent list made other

/-- `node` has been taken out of the children of `parent` and freed: the link that led to
it leads to what was behind it. -/
structure ChildErased (vfs : Vfs) (parent : U64) (list : List U64) (node : U64) (next : Vfs) :
    Prop where
  gone : next.vnodes node = none
  children : node ≠ parent → LiveChildren next.vnodes parent (list.erase node)
  others : ∃ before after, list = before ++ node :: after ∧ ∀ other, other ≠ node →
    next.vnodes other = relink vfs.vnodes parent before (nextOf vfs.vnodes node) other

/-- Neither a vnode nor the root has changed. -/
def VnodesKept (vfs next : Vfs) : Prop := next.vnodes = vfs.vnodes ∧ next.root = vfs.root

/-- The first of some nodes that has a name. -/
def firstNamed (vnodes : U64 → Option Vnode) (wanted : List U8) (list : List U64) : Option U64 :=
  list.find? fun node => (vnodes node).any fun vnode => vnode.name.text = wanted

theorem childAppended (children : LiveChildren vfs.vnodes parent list) (nonnull : made ≠ 0#64)
    (fresh : vfs.vnodes made = none) (below : vnode.parent = parent) (last : vnode.next = 0#64)
    (vnodes : next.vnodes =
      Function.update (relink vfs.vnodes parent list made) made (some vnode)) :
    ChildAppended vfs parent list made next := by
  refine ⟨fresh, ⟨vnode, by rw [vnodes, Function.update_self], below⟩, ?_, ?_⟩
  · rw [vnodes]
    exact children.appended nonnull fresh last
  · intro other different
    rw [vnodes, Function.update_of_ne different]

theorem childErased
    (children : LiveChildren vfs.vnodes parent (before ++ node :: after))
    (vnodes : next.vnodes = Function.update
      (relink vfs.vnodes parent before (nextOf vfs.vnodes node)) node none) :
    ChildErased vfs parent (before ++ node :: after) node next := by
  refine ⟨by rw [vnodes, Function.update_self], ?_, before, after, rfl, ?_⟩
  · intro notParent
    rw [vnodes]
    exact children.erased notParent
  · intro other different
    rw [vnodes, Function.update_of_ne different]

/-- Removing the child that was just created gives the vnodes from before. -/
theorem vfsRemove_restores (children : LiveChildren vfs.vnodes parent list)
    (parentNonnull : parent ≠ 0#64) (nonnull : made ≠ 0#64) (fresh : vfs.vnodes made = none)
    (below : vnode.parent = parent) (last : vnode.next = 0#64)
    (vnodes : next.vnodes =
      Function.update (relink vfs.vnodes parent list made) made (some vnode)) :
    ∃ final, vfsRemove next parent made = some (0#32, final) ∧ final.vnodes = vfs.vnodes := by
  obtain ⟨notParent, notListed⟩ := children.ne_fresh fresh
  have appended := childAppended children nonnull fresh below last vnodes
  have filled := children.update notParent notListed (some vnode)
  have noNext : nextOf next.vnodes made = 0#64 := by
    rw [vnodes, nextOf_update, if_pos rfl]
    exact last
  refine ⟨_, vfsRemove_erases appended.children parentNonnull, ?_⟩
  dsimp only
  rw [noNext, vnodes, ← relink_update children notParent notListed, relink_relink filled,
    relink_update children notParent notListed, children.ends, Function.update_idem, ← fresh,
    Function.update_eq_self]

/-- The search depends on the vnodes only. -/
theorem vfsSearchNode_congr (same : next.vnodes = vfs.vnodes) (node : U64) (wanted : List U8) :
    vfsSearchNode next node wanted = vfsSearchNode vfs node wanted := by
  unfold vfsSearchNode
  rw [same]

theorem vfsSearchNode_first {wanted : List U8} (children : LiveChildren vfs.vnodes parent list)
    (parentNonnull : parent ≠ 0#64) (proper : ∀ c ∈ wanted, c ≠ 0#8)
    (names : ∀ node ∈ list, ∀ vnode, vfs.vnodes node = some vnode → ∀ c ∈ vnode.name.text, c ≠ 0#8) :
    vfsSearchNode vfs parent wanted = some ((firstNamed vfs.vnodes wanted list).getD 0#64) := by
  have short := children.short
  obtain ⟨parentNode, parentLive, siblings⟩ := children
  have same : (list.find? fun node =>
      (vfs.vnodes node).any fun vnode => strcmp vnode.name.text wanted = 0) =
        firstNamed vfs.vnodes wanted list := by
    rw [firstNamed, ← List.head?_filter, ← List.head?_filter]
    refine congrArg List.head? (List.filter_congr ?_)
    intro node listed
    obtain ⟨vnode, live⟩ := siblings.live node listed
    simp only [live, Option.any_some, strcmp_eq_zero_iff (names node listed vnode live) proper]
  rw [vfsSearchNode, if_neg parentNonnull, parentLive, Option.bind_eq_bind, Option.bind_some,
    searchSiblings_eq siblings short, same]

/-- The search finds nothing exactly if no child has the name. -/
theorem firstNamed_null_iff {wanted : List U8} (children : LiveChildren vfs.vnodes parent list) :
    (firstNamed vfs.vnodes wanted list).getD 0#64 = 0#64 ↔
      ∀ node ∈ list, ∀ vnode, vfs.vnodes node = some vnode → vnode.name.text ≠ wanted := by
  obtain ⟨parentNode, -, siblings⟩ := children
  have nonnull := siblings.segment.ne_stop
  unfold firstNamed
  constructor
  · intro isNull node listed vnode live named
    cases found : list.find? fun node =>
        (vfs.vnodes node).any fun vnode => vnode.name.text = wanted with
    | none =>
        have notNamed := List.find?_eq_none.mp found node listed
        rw [live, Option.any_some, decide_eq_true_eq] at notNamed
        exact notNamed named
    | some first =>
        rw [found, Option.getD_some] at isNull
        exact nonnull first (List.mem_of_find?_eq_some found) isNull
  · intro unnamed
    rw [List.find?_eq_none.mpr]
    · rfl
    · intro node listed
      obtain ⟨vnode, live⟩ := siblings.live node listed
      rw [live, Option.any_some, decide_eq_true_eq]
      exact unnamed node listed vnode live

/-- Creation appends to the children of `parent` or changes nothing, removal erases a child
or changes nothing, and the search takes the first child that has the name; a child that is
created and removed leaves no trace in any search. -/
theorem children_are_sequence (children : LiveChildren vfs.vnodes parent list)
    (parentNonnull : parent ≠ 0#64) (fresh : ∀ block ∈ vfs.supply.head?, vfs.vnodes block = none) :
    (∀ name type perms, ∃ error made next,
      vfsCreate vfs parent name type perms = some (error, made, next) ∧
      (error = 0#32 ∧ ChildAppended vfs parent list made next ∨
        error = 1#32 ∧ VnodesKept vfs next)) ∧
    (∀ node, ∃ error next, vfsRemove vfs parent node = some (error, next) ∧
      (error = 0#32 ↔ node ∈ list) ∧
      (node ∈ list → ChildErased vfs parent list node next) ∧ (node ∉ list → next = vfs)) ∧
    (∀ wanted, (∀ c ∈ wanted, c ≠ 0#8) →
      (∀ node ∈ list, ∀ vnode, vfs.vnodes node = some vnode →
        ∀ c ∈ vnode.name.text, c ≠ 0#8) →
      vfsSearchNode vfs parent wanted = some ((firstNamed vfs.vnodes wanted list).getD 0#64) ∧
      (vfsSearchNode vfs parent wanted = some 0#64 ↔ ∀ node ∈ list, ∀ vnode,
        vfs.vnodes node = some vnode → vnode.name.text ≠ wanted)) ∧
    (∀ name type perms made next,
      vfsCreate vfs parent name type perms = some (0#32, made, next) →
      ∃ final, vfsRemove next parent made = some (0#32, final) ∧ final.vnodes = vfs.vnodes ∧
        ∀ node wanted, vfsSearchNode final node wanted = vfsSearchNode vfs node wanted) := by
  refine ⟨?create, ?remove, ?search, ?restore⟩
  case create =>
    intro name type perms
    rcases vfsCreate_appends_or_fails children parentNonnull fresh name type perms with
      ⟨text, made, copy, supply, rfl, nonnull, madeFresh, created⟩ | ⟨next, failed, kept⟩
    · exact ⟨_, _, _, created, .inl ⟨rfl, childAppended children nonnull madeFresh rfl rfl rfl⟩⟩
    · exact ⟨_, _, _, failed, .inr ⟨rfl, kept⟩⟩
  case remove =>
    intro node
    by_cases listed : node ∈ list
    · obtain ⟨before, after, rfl⟩ := List.append_of_mem listed
      exact ⟨_, _, vfsRemove_erases children parentNonnull, by simp,
        fun _ => childErased children rfl, fun absent => absurd listed absent⟩
    · exact ⟨_, _, vfsRemove_refuses children listed, by simp [listed],
        fun listed' => absurd listed' listed, fun _ => rfl⟩
  case search =>
    intro wanted proper names
    have found := vfsSearchNode_first children parentNonnull proper names
    refine ⟨found, ?_⟩
    rw [found, Option.some_inj]
    exact firstNamed_null_iff children
  case restore =>
    intro name type perms made next created
    rcases vfsCreate_appends_or_fails children parentNonnull fresh name type perms with
      ⟨text, made', copy, supply, rfl, nonnull, madeFresh, created'⟩ | ⟨next', failed, -⟩
    · rw [created, Option.some_inj, Prod.mk.injEq, Prod.mk.injEq] at created'
      obtain ⟨-, rfl, isNext⟩ := created'
      obtain ⟨final, removed, restored⟩ := vfsRemove_restores children parentNonnull nonnull
        madeFresh rfl rfl (congrArg Vfs.vnodes isNext)
      exact ⟨final, removed, restored, vfsSearchNode_congr restored⟩
    · rw [created] at failed
      cases failed

/-- A root with two files. -/
def twoFiles : Vfs where
  vnodes := fun node =>
    if node = 0x10#64 then some { rootVnode ⟨0x11#64, rootName⟩ with child := 0x20#64 }
    else if node = 0x20#64 then
      some { newVnode 0x10#64 ⟨0x21#64, [charLowerA]⟩ .file rootPermissions with next := 0x30#64 }
    else if node = 0x30#64 then
      some (newVnode 0x10#64 ⟨0x31#64, [charLowerX]⟩ .file rootPermissions)
    else none
  root := 0x10#64
  supply := [0x40#64, 0x41#64]

theorem twoFiles_children : LiveChildren twoFiles.vnodes 0x10#64 [0x20#64, 0x30#64] := by
  refine ⟨_, rfl, ⟨rfl, by decide, rfl, by decide, rfl⟩, ?_⟩
  intro node listed
  simp only [List.mem_cons, List.not_mem_nil, or_false] at listed
  rcases listed with rfl | rfl
  · exact ⟨_, rfl⟩
  · exact ⟨_, rfl⟩

/-- The first of two files is removed. -/
theorem children_are_sequence_two : ∃ next,
    vfsRemove twoFiles 0x10#64 0x20#64 = some (0#32, next) ∧
      LiveChildren next.vnodes 0x10#64 [0x30#64] := by
  have sequence := children_are_sequence twoFiles_children (by decide) (by
    intro block isHead
    cases isHead
    rfl)
  obtain ⟨error, next, removed, succeeds, erased, -⟩ := sequence.2.1 0x20#64
  have listed : (0x20#64 : U64) ∈ ([0x20#64, 0x30#64] : List U64) := List.mem_cons_self
  obtain rfl := succeeds.mpr listed
  exact ⟨next, removed, (erased listed).children (by decide)⟩

end Nekonix
