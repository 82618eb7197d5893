import Nekonix.Dev.Vfs.Tree

/-!
# Child lists in any heap

The children of a live vnode as a list, whatever the rest of the heap holds, and the one link
that creation and removal lead elsewhere.
-/

namespace Nekonix

open LinkedList

/-- The children of a live `parent` in order, all of them live. -/
def LiveChildren (vnodes : U64 → Option Vnode) (parent : U64) (list : List U64) : Prop :=
  ∃ vnode, vnodes parent = some vnode ∧ Siblings vnodes vnode.child list

/-- The vnodes after the link behind the children `before` is led to `target`: the last
one's `next`, or the parent's `child`. -/
def relink (vnodes : U64 → Option Vnode) (parent : U64) (before : List U64) (target : U64) :
    U64 → Option Vnode :=
  match before.getLast? with
  | none =>
      Function.update vnodes parent ((vnodes parent).map fun vnode => { vnode with child := target })
  | some prev =>
      Function.update vnodes prev ((vnodes prev).map fun vnode => { vnode with next := target })

variable {vnodes changed : U64 → Option Vnode} {vfs : Vfs} {parent node made target : U64}
  {before after list rest : List U64} {vnode : Vnode}

/-- The links of siblings after one vnode changed. -/
theorem nextOf_update {vnodes : U64 → Option Vnode} {changed : Option Vnode} (other : U64) :
    nextOf (Function.update vnodes node changed) other =
      if other = node then changed.elim 0#64 Vnode.next else nextOf vnodes other := by
  by_cases same : other = node
  · subst same
    rw [if_pos rfl, nextOf, Function.update_self]
    cases changed <;> rfl
  · rw [if_neg same, nextOf, Function.update_of_ne same]
    rfl

theorem ne_of_live_dead {vnodes : U64 → Option Vnode} {other : U64}
    (live : vnodes other = some vnode) (dead : vnodes node = none) : other ≠ node := by
  rintro rfl
  rw [dead] at live
  cases live

@[simp]
theorem relink_nil (live : vnodes parent = some vnode) : relink vnodes parent [] target =
    Function.update vnodes parent (some { vnode with child := target }) := by
  simp [relink, live]

@[simp]
theorem relink_concat {prev : U64} (live : vnodes prev = some vnode) :
    relink vnodes parent (before ++ [prev]) target =
      Function.update vnodes prev (some { vnode with next := target }) := by
  simp [relink, live]

/-- A live vnode stays live when another value is stored. -/
theorem live_update {other : U64} (live : ∃ vnode, vnodes other = some vnode) (vnode : Vnode) :
    ∃ found, Function.update vnodes node (some vnode) other = some found := by
  by_cases here : other = node
  · rw [here, Function.update_self]
    exact ⟨vnode, rfl⟩
  · rw [Function.update_of_ne here]
    exact live

namespace LiveChildren

theorem congr (children : LiveChildren vnodes parent list)
    (agree : ∀ other, other = parent ∨ other ∈ list → changed other = vnodes other) :
    LiveChildren changed parent list := by
  obtain ⟨vnode, live, siblings⟩ := children
  refine ⟨vnode, by rw [agree parent (.inl rfl), live], siblings.segment.congr ?_, ?_⟩
  · intro other listed
    rw [nextOf, nextOf, agree other (.inr listed)]
  · intro other listed
    rw [agree other (.inr listed)]
    exact siblings.live other listed

/-- Another vnode may be filled in or freed. -/
theorem update (children : LiveChildren vnodes parent list) (notParent : node ≠ parent)
    (notListed : node ∉ list) (value : Option Vnode) :
    LiveChildren (Function.update vnodes node value) parent list := by
  refine children.congr ?_
  rintro other (rfl | listed)
  · exact Function.update_of_ne notParent.symm _ _
  · refine Function.update_of_ne ?_ _ _
    rintro rfl
    exact notListed listed

/-- A dead vnode is no child. -/
theorem ne_fresh (children : LiveChildren vnodes parent list)
    (fresh : vnodes node = none) : node ≠ parent ∧ node ∉ list := by
  obtain ⟨vnode, live, siblings⟩ := children
  refine ⟨(ne_of_live_dead live fresh).symm, ?_⟩
  intro listed
  obtain ⟨found, nodeLive⟩ := siblings.live node listed
  exact ne_of_live_dead nodeLive fresh rfl

/-- Leading a link elsewhere replaces what is behind it. -/
theorem relinked {dropped : List U64} (children : LiveChildren vnodes parent (before ++ dropped))
    (further : Siblings vnodes target rest) (apart : ∀ other ∈ before, other ∉ rest) :
    LiveChildren (relink vnodes parent before target) parent (before ++ rest) := by
  obtain ⟨vnode, live, siblings⟩ := children
  rcases List.eq_nil_or_concat' before with rfl | ⟨front, prev, rfl⟩
  · rw [relink_nil live, List.nil_append]
    refine ⟨_, Function.update_self .., further.segment.congr ?_, ?_⟩
    · intro other _
      rw [nextOf_update]
      split_ifs with isParent
      · rw [isParent, nextOf_live live]
        rfl
      · rfl
    · exact fun other listed => live_update (further.live other listed) _
  · obtain ⟨prevNode, prevLive⟩ := siblings.live prev (by simp)
    have segment := siblings.segment
    rw [List.append_assoc, List.singleton_append] at segment
    obtain ⟨first, notNull, notFirst, prevNonnull, -⟩ := Segment.append_iff.mp segment
    have links : ∀ other, other ≠ prev →
        nextOf (Function.update vnodes prev (some { prevNode with next := target })) other =
          nextOf vnodes other := by
      intro other different
      rw [nextOf_update, if_neg different]
    have atPrev :
        nextOf (Function.update vnodes prev (some { prevNode with next := target })) prev =
          target := by
      rw [nextOf_update, if_pos rfl]
      rfl
    have listing : Siblings (Function.update vnodes prev (some { prevNode with next := target }))
        vnode.child (front ++ prev :: rest) := by
      refine ⟨Segment.append_iff.mpr ⟨?_, notNull, notFirst, prevNonnull, ?_⟩, ?_⟩
      · refine first.congr fun other listed => links other ?_
        rintro rfl
        exact notFirst listed
      · rw [atPrev]
        refine further.segment.congr fun other listed => links other ?_
        rintro rfl
        exact apart other (by simp) listed
      · intro other listed
        refine live_update ?_ _
        rcases List.mem_append.mp listed with inFront | inRest
        · exact siblings.live other (by simp [inFront])
        · rcases List.mem_cons.mp inRest with rfl | inRest
          · exact ⟨prevNode, prevLive⟩
          · exact further.live other inRest
    rw [relink_concat prevLive, List.append_assoc, List.singleton_append]
    by_cases isParent : parent = prev
    · subst isParent
      rw [live] at prevLive
      cases prevLive
      exact ⟨_, Function.update_self .., listing⟩
    · exact ⟨vnode, by rw [Function.update_of_ne isParent, live], listing⟩

/-- A walk along the children ends within the fuel. -/
theorem short (children : LiveChildren vnodes parent list) : list.length < 2 ^ 64 := by
  obtain ⟨vnode, -, siblings⟩ := children
  exact siblings.short

/-- Behind the last child no link leads on. -/
theorem ends (children : LiveChildren vnodes parent list) :
    relink vnodes parent list 0#64 = vnodes := by
  obtain ⟨vnode, live, siblings⟩ := children
  rcases List.eq_nil_or_concat' list with rfl | ⟨front, prev, rfl⟩
  · have noChild : vnode.child = 0#64 := siblings.segment
    rw [relink_nil live, ← noChild, ← live, Function.update_eq_self]
  · obtain ⟨prevNode, prevLive⟩ := siblings.live prev (by simp)
    have noNext : prevNode.next = 0#64 := by
      rw [← nextOf_live prevLive]
      exact siblings.segment.drop.2.2
    rw [relink_concat prevLive, ← noNext, ← prevLive, Function.update_eq_self]

end LiveChildren

/-- Leading a link elsewhere twice. -/
theorem relink_relink (children : LiveChildren vnodes parent list) (target other : U64) :
    relink (relink vnodes parent list target) parent list other =
      relink vnodes parent list other := by
  obtain ⟨vnode, live, siblings⟩ := children
  rcases List.eq_nil_or_concat' list with rfl | ⟨front, prev, rfl⟩
  · rw [relink_nil live, relink_nil live, relink_nil (Function.update_self ..),
      Function.update_idem]
  · obtain ⟨prevNode, prevLive⟩ := siblings.live prev (by simp)
    rw [relink_concat prevLive, relink_concat prevLive, relink_concat (Function.update_self ..),
      Function.update_idem]

/-- A vnode that is neither the parent nor a child may be stored before or after. -/
theorem relink_update (children : LiveChildren vnodes parent list) (notParent : node ≠ parent)
    (notListed : node ∉ list) (target : U64) (value : Option Vnode) :
    relink (Function.update vnodes node value) parent list target =
      Function.update (relink vnodes parent list target) node value := by
  obtain ⟨vnode, live, siblings⟩ := children
  rcases List.eq_nil_or_concat' list with rfl | ⟨front, prev, rfl⟩
  · have live' : Function.update vnodes node value parent = some vnode := by
      rw [Function.update_of_ne notParent.symm, live]
    rw [relink_nil live, relink_nil live', Function.update_comm notParent]
  · have notPrev : node ≠ prev := by
      rintro rfl
      exact notListed (by simp)
    obtain ⟨prevNode, prevLive⟩ := siblings.live prev (by simp)
    have prevLive' : Function.update vnodes node value prev = some prevNode := by
      rw [Function.update_of_ne notPrev.symm, prevLive]
    rw [relink_concat prevLive, relink_concat prevLive', Function.update_comm notPrev]

/-- What no link is part of stays when one is led elsewhere. -/
theorem map_relink {α : Type} {read : Vnode → α} (other : U64)
    (atParent : other = parent → ∀ vnode, read { vnode with child := target } = read vnode)
    (atPrev : ∀ vnode, read { vnode with next := target } = read vnode) :
    (relink vnodes parent before target other).map read = (vnodes other).map read := by
  unfold relink
  cases before.getLast? with
  | none =>
      by_cases isParent : other = parent
      · subst isParent
        simp [Function.comp_def, atParent rfl]
      · simp [Function.update_of_ne isParent]
  | some prev =>
      by_cases isPrev : other = prev
      · subst isPrev
        simp [Function.comp_def, atPrev]
      · simp [Function.update_of_ne isPrev]

/-- Only the last of the vnodes before the link has another `next`. -/
theorem nextOf_relink {other : U64} (notBefore : other ∉ before) :
    nextOf (relink vnodes parent before target) other = nextOf vnodes other := by
  unfold relink
  cases isLast : before.getLast? with
  | none =>
      dsimp only
      rw [nextOf_update]
      split_ifs with isParent
      · rw [isParent, nextOf]
        cases vnodes parent <;> rfl
      · rfl
  | some prev =>
      dsimp only
      rw [nextOf_update, if_neg]
      rintro rfl
      exact notBefore (List.mem_of_getLast? isLast)

namespace LiveChildren

/-- A vnode without a next one, filled in and linked behind the last child. -/
theorem appended (children : LiveChildren vnodes parent list) (nonnull : made ≠ 0#64)
    (fresh : vnodes made = none) (last : vnode.next = 0#64) :
    LiveChildren (Function.update (relink vnodes parent list made) made (some vnode)) parent
      (list ++ [made]) := by
  obtain ⟨notParent, notListed⟩ := children.ne_fresh fresh
  have filled := children.update notParent notListed (some vnode)
  rw [← relink_update children notParent notListed]
  rw [← List.append_nil list] at filled
  refine filled.relinked ⟨⟨rfl, nonnull, ?_⟩, ?_⟩ ?_
  · rw [segment_nil, nextOf_update, if_pos rfl]
    exact last
  · intro node isMade
    rw [List.mem_singleton.mp isMade, Function.update_self]
    exact ⟨vnode, rfl⟩
  · intro other listed isMade
    rw [List.mem_singleton.mp isMade] at listed
    exact notListed listed

/-- A child unlinked and freed. -/
theorem erased (children : LiveChildren vnodes parent (before ++ node :: after))
    (notParent : node ≠ parent) :
    LiveChildren (Function.update (relink vnodes parent before (nextOf vnodes node)) node none)
      parent ((before ++ node :: after).erase node) := by
  have nodup : (before ++ node :: after).Nodup := by
    obtain ⟨parentNode, -, siblings⟩ := children
    exact siblings.segment.nodup
  obtain ⟨-, behind, apart⟩ := List.nodup_append'.mp nodup
  have notBefore : node ∉ before := fun listed => apart listed List.mem_cons_self
  have notAfter : node ∉ after := (List.nodup_cons.mp behind).1
  rw [List.erase_append_right _ notBefore, List.erase_cons_head]
  refine (children.relinked ?_ ?_).update notParent ?_ none
  · obtain ⟨parentNode, -, siblings⟩ := children
    exact ⟨siblings.segment.drop.2.2, fun other listed => siblings.live other (by simp [listed])⟩
  · exact fun other listed inAfter => apart listed (List.mem_cons_of_mem _ inAfter)
  · rw [List.mem_append, not_or]
    exact ⟨notBefore, notAfter⟩

end LiveChildren

/-! The operations -/

/-- `vfs_create` where both allocations succeed. -/
theorem vfsCreate_appends (children : LiveChildren vfs.vnodes parent list)
    (parentNonnull : parent ≠ 0#64) {copy : U64} {supply : List U64}
    (supplied : vfs.supply = made :: copy :: supply) (nonnull : made ≠ 0#64)
    (copyNonnull : copy ≠ 0#64) (fresh : vfs.vnodes made = none) (text : List U8)
    (type : VnodeType) (perms : U32) :
    vfsCreate vfs parent (some text) type perms = some (0#32, made,
      { vfs with
        vnodes := Function.update (relink vfs.vnodes parent list made) made
          (some (newVnode parent ⟨copy, text⟩ type perms))
        supply }) := by
  obtain ⟨notParent, notListed⟩ := children.ne_fresh fresh
  have filled := children.update notParent notListed (some (newVnode parent ⟨copy, text⟩ type perms))
  rw [← relink_update children notParent notListed]
  obtain ⟨parentNode, parentLive, siblings⟩ := filled
  simp only [vfsCreate, if_neg parentNonnull, Vfs.kmalloc, supplied, if_neg nonnull,
    if_neg copyNonnull, Vfs.store, parentLive, Option.bind_eq_bind, Option.bind_some]
  rcases List.eq_nil_or_concat' list with rfl | ⟨before, last, rfl⟩
  · have noChild : parentNode.child = 0#64 := siblings.segment
    rw [if_pos noChild, relink_nil parentLive]
  · have hasChild : parentNode.child ≠ 0#64 := by
      intro noChild
      have segment := siblings.segment
      rw [noChild] at segment
      exact absurd segment.eq_nil (by simp)
    obtain ⟨lastNode, lastLive⟩ := siblings.live last (by simp)
    have short := siblings.short
    rw [List.length_append, List.length_singleton] at short
    rw [if_neg hasChild, lastSibling_eq siblings (by omega), Option.bind_some, lastLive,
      relink_concat lastLive]
    rfl

/-- `vfs_create` where an allocation fails. -/
theorem vfsCreate_failed (parent : U64) (fresh : ∀ block ∈ vfs.supply.head?, vfs.vnodes block = none)
    (failed : ∀ node copy supply, vfs.supply = node :: copy :: supply →
      node = 0#64 ∨ copy = 0#64) (name : List U8) (type : VnodeType) (perms : U32) :
    ∃ next, vfsCreate vfs parent (some name) type perms = some (1#32, 0#64, next) ∧
      next.vnodes = vfs.vnodes ∧ next.root = vfs.root := by
  unfold vfsCreate
  by_cases parentNull : parent = 0#64
  · exact ⟨vfs, by simp [parentNull], rfl, rfl⟩
  · cases supply : vfs.supply with
    | nil => exact ⟨vfs, by simp [parentNull, Vfs.kmalloc, supply], rfl, rfl⟩
    | cons node rest =>
        have dead : vfs.vnodes node = none := fresh node (by simp [supply])
        by_cases nodeNull : node = 0#64
        · exact ⟨{ vfs with supply := rest }, by simp [parentNull, Vfs.kmalloc, supply, nodeNull],
            rfl, rfl⟩
        · have freed : Function.update vfs.vnodes node none = vfs.vnodes := by
            rw [← dead, Function.update_eq_self]
          cases rest with
          | nil =>
              refine ⟨({ vfs with supply := [] } : Vfs).kfree node, ?_, freed, rfl⟩
              simp [parentNull, Vfs.kmalloc, supply, nodeNull]
          | cons copy rest =>
              have copyNull : copy = 0#64 :=
                (failed node copy rest supply).resolve_left nodeNull
              refine ⟨({ vfs with supply := rest } : Vfs).kfree node, ?_, freed, rfl⟩
              simp [parentNull, Vfs.kmalloc, supply, nodeNull, copyNull]

/-- `vfs_create` appends a node or, for want of a name or a block, keeps the vnodes. -/
theorem vfsCreate_appends_or_fails (children : LiveChildren vfs.vnodes parent list)
    (parentNonnull : parent ≠ 0#64) (fresh : ∀ block ∈ vfs.supply.head?, vfs.vnodes block = none)
    (name : Option (List U8)) (type : VnodeType) (perms : U32) :
    (∃ text made copy supply, name = some text ∧ made ≠ 0#64 ∧ vfs.vnodes made = none ∧
      vfsCreate vfs parent name type perms = some (0#32, made,
        { vfs with
          vnodes := Function.update (relink vfs.vnodes parent list made) made
            (some (newVnode parent ⟨copy, text⟩ type perms))
          supply })) ∨
    ∃ next, vfsCreate vfs parent name type perms = some (1#32, 0#64, next) ∧
      next.vnodes = vfs.vnodes ∧ next.root = vfs.root := by
  cases name with
  | none => exact .inr ⟨vfs, rfl, rfl, rfl⟩
  | some text =>
      by_cases supplied : ∃ made copy supply, vfs.supply = made :: copy :: supply ∧
          made ≠ 0#64 ∧ copy ≠ 0#64
      · obtain ⟨made, copy, supply, isSupply, nonnull, copyNonnull⟩ := supplied
        have madeFresh : vfs.vnodes made = none := fresh made (by simp [isSupply])
        exact .inl ⟨text, made, copy, supply, rfl, nonnull, madeFresh,
          vfsCreate_appends children parentNonnull isSupply nonnull copyNonnull madeFresh text
            type perms⟩
      · have failed : ∀ made copy supply, vfs.supply = made :: copy :: supply →
            made = 0#64 ∨ copy = 0#64 := by
          intro made copy supply isSupply
          by_contra both
          rw [not_or] at both
          exact supplied ⟨made, copy, supply, isSupply, both⟩
        exact .inr (vfsCreate_failed parent fresh failed text type perms)

/-- `vfs_remove` of a child. -/
theorem vfsRemove_erases
    (children : LiveChildren vfs.vnodes parent (before ++ node :: after))
    (parentNonnull : parent ≠ 0#64) :
    vfsRemove vfs parent node = some (0#32,
      { vfs with
        vnodes := Function.update (relink vfs.vnodes parent before (nextOf vfs.vnodes node)) node
          none }) := by
  obtain ⟨parentNode, parentLive, siblings⟩ := children
  obtain ⟨vnode, live⟩ := siblings.live node (by simp)
  have nonnull := siblings.segment.ne_stop node (by simp)
  have short := siblings.short
  rw [List.length_append] at short
  simp only [vfsRemove, parentNonnull, nonnull, or_self, if_false, parentLive,
    Option.bind_eq_bind, Option.bind_some,
    siblingBefore_found siblings (by omega : before.length < 2 ^ 64), live, nextOf_live live]
  rcases List.eq_nil_or_concat' before with rfl | ⟨front, prev, rfl⟩
  · simp [relink_nil parentLive, Vfs.store, Vfs.kfree]
  · obtain ⟨prevNode, prevLive⟩ := siblings.live prev (by simp)
    have prevNonnull := siblings.segment.ne_stop prev (by simp)
    simp [relink_concat prevLive, Vfs.store, Vfs.kfree, prevNonnull, prevLive]

/-- `vfs_remove` of anything else. -/
theorem vfsRemove_refuses (children : LiveChildren vfs.vnodes parent list) (absent : node ∉ list) :
    vfsRemove vfs parent node = some (1#32, vfs) := by
  obtain ⟨parentNode, parentLive, siblings⟩ := children
  unfold vfsRemove
  split_ifs with isNull
  · rfl
  · simp only [parentLive, Option.bind_eq_bind, Option.bind_some,
      siblingBefore_absent siblings absent siblings.short]

end Nekonix
