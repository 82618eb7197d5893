import Nekonix.Dev.Vfs.Children

/-!
# Creating and removing vnodes

What `vfs_create` and `vfs_remove` do to a tree of live vnodes: one child list
gains its last element or loses one, and no other list changes.
-/

namespace Nekonix

open LinkedList

/-- A vnode without its place among its siblings and the list of its children. -/
def Vnode.unlinked (vnode : Vnode) : Vnode := { vnode with next := 0#64, child := 0#64 }

/-- The vnode apart from its list pointers, if it is live. -/
def Vfs.fields (vfs : Vfs) (node : U64) : Option Vnode := (vfs.vnodes node).map Vnode.unlinked

variable {vfs next : Vfs} {children : U64 → List U64} {parent node : U64} {vnode : Vnode}

theorem Vfs.fields_of_live (live : vfs.vnodes node = some vnode) :
    vfs.fields node = some vnode.unlinked := by
  rw [fields, live]
  rfl

/-- Where the other fields are the same, the parent is. -/
theorem Vfs.live_of_fields {vnode : Vnode} (same : next.fields node = vfs.fields node)
    (live : vfs.vnodes node = some vnode) :
    ∃ found, next.vnodes node = some found ∧ found.unlinked = vnode.unlinked := by
  rw [fields_of_live live, fields, Option.map_eq_some_iff] at same
  exact same

theorem Vnode.parent_of_unlinked {vnode other : Vnode} (same : other.unlinked = vnode.unlinked) :
    other.parent = vnode.parent := by
  have parents := congrArg Vnode.parent same
  exact parents

/-- What creating `node` below `parent` does. -/
structure NodeCreated (vfs : Vfs) (children : U64 → List U64) (parent node : U64) (vnode : Vnode)
    (next : Vfs) : Prop where
  fresh : vfs.vnodes node = none
  nonnull : node ≠ 0#64
  root : next.root = vfs.root
  made : next.vnodes node = some vnode
  childless : vnode.child = 0#64
  below : vnode.parent = parent
  fields : ∀ other, other ≠ node → next.fields other = vfs.fields other
  listed : ∀ found, next.vnodes parent = some found →
    Segment (nextOf next.vnodes) 0#64 found.child (children parent ++ [node])
  others : ∀ other before after, other ≠ parent → vfs.vnodes other = some before →
    next.vnodes other = some after → after.child = before.child ∧
      ∀ sibling ∈ children other, nextOf next.vnodes sibling = nextOf vfs.vnodes sibling

/-- The lists of children with `node` behind those of `parent`. -/
def addChild (children : U64 → List U64) (parent node : U64) : U64 → List U64 :=
  fun other =>
    if other = node then [] else if other = parent then children parent ++ [node] else children other

namespace NodeCreated

theorem live_of_old (created : NodeCreated vfs children parent node vnode next) {other : U64}
    {before : Vnode} (live : vfs.vnodes other = some before) :
    other ≠ node ∧ ∃ after, next.vnodes other = some after ∧ after.unlinked = before.unlinked := by
  have different : other ≠ node := by
    rintro rfl
    rw [created.fresh] at live
    cases live
  exact ⟨different, Vfs.live_of_fields (created.fields other different) live⟩

theorem old_of_live (created : NodeCreated vfs children parent node vnode next) {other : U64}
    {after : Vnode} (different : other ≠ node) (live : next.vnodes other = some after) :
    ∃ before, vfs.vnodes other = some before ∧ after.unlinked = before.unlinked := by
  obtain ⟨before, found, same⟩ := Vfs.live_of_fields (created.fields other different).symm live
  exact ⟨before, found, same.symm⟩

theorem stillBelow (created : NodeCreated vfs children parent node vnode next) {depth : Nat}
    {other : U64} (below : Below vfs depth other) : Below next depth other := by
  induction below with
  | root =>
      rw [← created.root]
      exact .root
  | child live notRoot _ inductionHypothesis =>
      obtain ⟨-, after, liveAfter, same⟩ := created.live_of_old live
      rw [← Vnode.parent_of_unlinked same] at inductionHypothesis
      exact .child liveAfter (created.root ▸ notRoot) inductionHypothesis

theorem tree (created : NodeCreated vfs children parent node vnode next)
    (tree : LiveTree vfs children) {parentNode : Vnode}
    (parentLive : vfs.vnodes parent = some parentNode) :
    LiveTree next (addChild children parent node) := by
  obtain ⟨parentOld, parentAfter, parentLiveAfter, -⟩ := created.live_of_old parentLive
  have nodeNotRoot : node ≠ vfs.root := by
    rintro rfl
    obtain ⟨rootNode, rootLive, -⟩ := tree.root
    rw [created.fresh] at rootLive
    cases rootLive
  refine
    { root := ?root
      null := ?null
      segment := ?segment
      child := ?child
      listed := ?listed
      climbs := ?climbs }
  case root =>
    obtain ⟨rootNode, rootLive, noParent⟩ := tree.root
    obtain ⟨-, after, liveAfter, same⟩ := created.live_of_old rootLive
    rw [created.root]
    exact ⟨after, liveAfter, (Vnode.parent_of_unlinked same).trans noParent⟩
  case null =>
    have same := created.fields 0#64 created.nonnull.symm
    rw [Vfs.fields, Vfs.fields, tree.null, Option.map_none, Option.map_eq_none_iff] at same
    exact same
  case segment =>
    intro other after live
    unfold addChild
    split_ifs with isNew isParent
    · subst isNew
      rw [created.made] at live
      cases live
      exact created.childless
    · subst isParent
      exact created.listed after live
    · obtain ⟨before, liveBefore, -⟩ := created.old_of_live isNew live
      obtain ⟨sameChild, sameLinks⟩ := created.others other before after isParent liveBefore live
      rw [sameChild]
      exact (tree.segment other before liveBefore).congr sameLinks
  case child =>
    intro other after listed live membership
    unfold addChild at membership
    split_ifs at membership with isNew isParent
    · cases membership
    · subst isParent
      rcases List.mem_append.mp membership with old | new
      · obtain ⟨found, foundLive, foundParent⟩ := tree.child other _ listed parentLive old
        obtain ⟨-, found', foundLive', same⟩ := created.live_of_old foundLive
        exact ⟨found', foundLive', (Vnode.parent_of_unlinked same).trans foundParent⟩
      · rw [List.mem_singleton.mp new]
        exact ⟨vnode, created.made, created.below⟩
    · obtain ⟨before, liveBefore, -⟩ := created.old_of_live isNew live
      obtain ⟨found, foundLive, foundParent⟩ := tree.child other _ listed liveBefore membership
      obtain ⟨-, found', foundLive', same⟩ := created.live_of_old foundLive
      exact ⟨found', foundLive', (Vnode.parent_of_unlinked same).trans foundParent⟩
  case listed =>
    intro other after live notRoot
    by_cases isNew : other = node
    · subst isNew
      rw [created.made] at live
      cases live
      rw [created.below]
      refine ⟨?_, parentAfter, parentLiveAfter⟩
      simp [addChild, parentOld]
    · obtain ⟨before, liveBefore, same⟩ := created.old_of_live isNew live
      rw [created.root] at notRoot
      obtain ⟨membership, above, aboveLive⟩ := tree.listed other before liveBefore notRoot
      rw [Vnode.parent_of_unlinked same]
      obtain ⟨aboveOld, above', aboveLive', -⟩ := created.live_of_old aboveLive
      refine ⟨?_, above', aboveLive'⟩
      unfold addChild
      rw [if_neg aboveOld]
      split_ifs with isParent
      · rw [← isParent]
        exact List.mem_append_left _ membership
      · exact membership
  case climbs =>
    intro other after live
    by_cases isNew : other = node
    · subst isNew
      obtain ⟨depth, below⟩ := tree.climbs parent parentNode parentLive
      rw [created.made] at live
      cases live
      refine ⟨depth + 1, .child created.made (created.root ▸ nodeNotRoot) ?_⟩
      rw [created.below]
      exact created.stillBelow below
    · obtain ⟨before, liveBefore, -⟩ := created.old_of_live isNew live
      obtain ⟨depth, below⟩ := tree.climbs other before liveBefore
      exact ⟨depth, created.stillBelow below⟩

end NodeCreated

namespace LiveTree

theorem liveChildren (tree : LiveTree vfs children)
    (parentLive : ∃ parentNode, vfs.vnodes parent = some parentNode) :
    LiveChildren vfs.vnodes parent (children parent) :=
  parentLive.imp fun _ live => ⟨live, tree.siblings live⟩

/-- No node has two parents. -/
theorem not_child_of_two (tree : LiveTree vfs children) {other sibling : U64}
    {parentNode otherNode : Vnode} (parentLive : vfs.vnodes parent = some parentNode)
    (otherLive : vfs.vnodes other = some otherNode) (different : other ≠ parent)
    (membership : sibling ∈ children other) : sibling ∉ children parent := by
  intro membership'
  obtain ⟨found, live, isOther⟩ := tree.child other otherNode sibling otherLive membership
  obtain ⟨found', live', isParent⟩ := tree.child parent parentNode sibling parentLive membership'
  rw [live] at live'
  cases live'
  exact different (isOther.symm.trans isParent)

end LiveTree

/-- A childless vnode is filled in and linked behind the last child. -/
theorem NodeCreated.of_relink (tree : LiveTree vfs children)
    (parentLive : ∃ parentNode, vfs.vnodes parent = some parentNode) (nonnull : node ≠ 0#64)
    (fresh : vfs.vnodes node = none) (childless : vnode.child = 0#64) (last : vnode.next = 0#64)
    (below : vnode.parent = parent)
    (vnodes : next.vnodes =
      Function.update (relink vfs.vnodes parent (children parent) node) node (some vnode))
    (root : next.root = vfs.root) : NodeCreated vfs children parent node vnode next := by
  have old := tree.liveChildren parentLive
  have appended := old.appended nonnull fresh last
  obtain ⟨parentNode, parentLive⟩ := parentLive
  refine ⟨fresh, nonnull, root, by rw [vnodes, Function.update_self], childless, below, ?_, ?_, ?_⟩
  · intro other different
    rw [Vfs.fields, Vfs.fields, vnodes, Function.update_of_ne different]
    exact map_relink other (fun _ _ => rfl) fun _ => rfl
  · intro found live
    rw [← vnodes] at appended
    obtain ⟨found', live', siblings⟩ := appended
    rw [live] at live'
    cases live'
    exact siblings.segment
  · intro other before after notParent live liveAfter
    have different := ne_of_live_dead live fresh
    rw [vnodes, Function.update_of_ne different] at liveAfter
    constructor
    · have sameChild := @map_relink vfs.vnodes parent node (children parent) U64 Vnode.child other
        (fun isParent => absurd isParent notParent) fun _ => rfl
      rw [liveAfter, live] at sameChild
      exact Option.some_inj.mp sameChild
    · intro sibling membership
      obtain ⟨found, siblingLive, -⟩ := tree.child other before sibling live membership
      rw [vnodes, nextOf_update, if_neg (ne_of_live_dead siblingLive fresh)]
      exact nextOf_relink (tree.not_child_of_two parentLive live notParent membership)

/-- `vfs_create` makes a node or leaves the vnodes as they are. -/
theorem vfsCreate_spec (tree : LiveTree vfs children) {parentNode : Vnode}
    (parentLive : vfs.vnodes parent = some parentNode)
    (fresh : ∀ block ∈ vfs.supply.head?, vfs.vnodes block = none) (name : Option (List U8))
    (type : VnodeType) (perms : U32) :
    (∃ text made copy next, name = some text ∧
      vfsCreate vfs parent name type perms = some (0#32, made, next) ∧
      NodeCreated vfs children parent made (newVnode parent ⟨copy, text⟩ type perms) next) ∨
    ∃ next, vfsCreate vfs parent name type perms = some (1#32, 0#64, next) ∧
      next.vnodes = vfs.vnodes ∧ next.root = vfs.root := by
  have live : ∃ parentNode, vfs.vnodes parent = some parentNode := ⟨parentNode, parentLive⟩
  rcases vfsCreate_appends_or_fails (tree.liveChildren live) (tree.nonnull parentLive) fresh name
    type perms with ⟨text, made, copy, supply, isName, nonnull, madeFresh, result⟩ | failed
  · exact .inl ⟨text, made, copy, _, isName, result,
      .of_relink tree live nonnull madeFresh rfl rfl rfl rfl rfl⟩
  · exact .inr failed

/-- What removing a childless `node` below `parent` does. -/
structure NodeRemoved (vfs : Vfs) (children : U64 → List U64) (parent node : U64) (next : Vfs) :
    Prop where
  gone : next.vnodes node = none
  root : next.root = vfs.root
  supply : next.supply = vfs.supply
  fields : ∀ other, other ≠ node → next.fields other = vfs.fields other
  listed : ∀ found, next.vnodes parent = some found →
    Segment (nextOf next.vnodes) 0#64 found.child ((children parent).erase node)
  others : ∀ other before after, other ≠ parent → vfs.vnodes other = some before →
    next.vnodes other = some after → after.child = before.child ∧
      ∀ sibling ∈ children other, nextOf next.vnodes sibling = nextOf vfs.vnodes sibling

/-- The lists of children without `node` below `parent`. -/
def removeChild (children : U64 → List U64) (parent node : U64) : U64 → List U64 :=
  fun other => if other = parent then (children parent).erase node else children other

namespace NodeRemoved

theorem live_of_old (removed : NodeRemoved vfs children parent node next) {other : U64}
    {before : Vnode} (different : other ≠ node) (live : vfs.vnodes other = some before) :
    ∃ after, next.vnodes other = some after ∧ after.unlinked = before.unlinked :=
  Vfs.live_of_fields (removed.fields other different) live

theorem old_of_live (removed : NodeRemoved vfs children parent node next) {other : U64}
    {after : Vnode} (live : next.vnodes other = some after) :
    other ≠ node ∧ ∃ before, vfs.vnodes other = some before ∧
      after.unlinked = before.unlinked := by
  have different := ne_of_live_dead live removed.gone
  obtain ⟨before, found, same⟩ := Vfs.live_of_fields (removed.fields other different).symm live
  exact ⟨different, before, found, same.symm⟩

/-- Nodes that are not below the removed one stay where they are. -/
theorem stillBelow (removed : NodeRemoved vfs children parent node next)
    (tree : LiveTree vfs children) (childless : children node = []) {depth : Nat} {other : U64}
    (below : Below vfs depth other) (different : other ≠ node) : Below next depth other := by
  induction below with
  | root =>
      rw [← removed.root]
      exact .root
  | @child depth other before liveBefore notRoot _ inductionHypothesis =>
      obtain ⟨after, liveAfter, same⟩ := removed.live_of_old different liveBefore
      have parentKept : before.parent ≠ node := by
        intro isNode
        have membership := (tree.listed other before liveBefore notRoot).1
        rw [isNode, childless] at membership
        cases membership
      have further := inductionHypothesis parentKept
      rw [← Vnode.parent_of_unlinked same] at further
      exact .child liveAfter (removed.root ▸ notRoot) further

theorem tree (removed : NodeRemoved vfs children parent node next) (tree : LiveTree vfs children)
    {vnode : Vnode} (live : vfs.vnodes node = some vnode) (notRoot : node ≠ vfs.root)
    (below : vnode.parent = parent) (childless : children node = []) :
    LiveTree next (removeChild children parent node) := by
  have keptMember : ∀ other before sibling, other ≠ node → vfs.vnodes other = some before →
      sibling ∈ removeChild children parent node other →
        sibling ∈ children other ∧ sibling ≠ node := by
    intro other before sibling _ liveOther membership
    unfold removeChild at membership
    split_ifs at membership with isParent
    · subst isParent
      have nodup := (tree.segment other before liveOther).nodup
      have kept := (nodup.mem_erase_iff).mp membership
      exact ⟨kept.2, kept.1⟩
    · refine ⟨membership, ?_⟩
      rintro rfl
      obtain ⟨found, foundLive, foundParent⟩ := tree.child other before _ liveOther membership
      rw [live] at foundLive
      cases foundLive
      exact isParent (foundParent.symm.trans below)
  refine
    { root := ?root
      null := ?null
      segment := ?segment
      child := ?child
      listed := ?listed
      climbs := ?climbs }
  case root =>
    obtain ⟨rootNode, rootLive, noParent⟩ := tree.root
    obtain ⟨after, liveAfter, same⟩ := removed.live_of_old notRoot.symm rootLive
    rw [removed.root]
    exact ⟨after, liveAfter, (Vnode.parent_of_unlinked same).trans noParent⟩
  case null =>
    have same := removed.fields 0#64 (tree.nonnull live).symm
    rw [Vfs.fields, Vfs.fields, tree.null, Option.map_none, Option.map_eq_none_iff] at same
    exact same
  case segment =>
    intro other after liveAfter
    obtain ⟨different, before, liveBefore, -⟩ := removed.old_of_live liveAfter
    unfold removeChild
    split_ifs with isParent
    · subst isParent
      exact removed.listed after liveAfter
    · obtain ⟨sameChild, sameLinks⟩ :=
        removed.others other before after isParent liveBefore liveAfter
      rw [sameChild]
      exact (tree.segment other before liveBefore).congr sameLinks
  case child =>
    intro other after sibling liveAfter membership
    obtain ⟨different, before, liveBefore, -⟩ := removed.old_of_live liveAfter
    obtain ⟨membership, siblingKept⟩ :=
      keptMember other before sibling different liveBefore membership
    obtain ⟨found, foundLive, foundParent⟩ := tree.child other before sibling liveBefore membership
    obtain ⟨found', foundLive', same⟩ := removed.live_of_old siblingKept foundLive
    exact ⟨found', foundLive', (Vnode.parent_of_unlinked same).trans foundParent⟩
  case listed =>
    intro other after liveAfter notRoot'
    obtain ⟨different, before, liveBefore, same⟩ := removed.old_of_live liveAfter
    rw [removed.root] at notRoot'
    obtain ⟨membership, above, aboveLive⟩ := tree.listed other before liveBefore notRoot'
    rw [Vnode.parent_of_unlinked same]
    have aboveKept : before.parent ≠ node := by
      intro isNode
      rw [isNode, childless] at membership
      cases membership
    obtain ⟨above', aboveLive', -⟩ := removed.live_of_old aboveKept aboveLive
    refine ⟨?_, above', aboveLive'⟩
    unfold removeChild
    split_ifs with isParent
    · rw [← isParent]
      exact (List.mem_erase_of_ne different).mpr membership
    · exact membership
  case climbs =>
    intro other after liveAfter
    obtain ⟨different, before, liveBefore, -⟩ := removed.old_of_live liveAfter
    obtain ⟨depth, belowRoot⟩ := tree.climbs other before liveBefore
    exact ⟨depth, removed.stillBelow tree childless belowRoot different⟩

end NodeRemoved

/-- A child is unlinked and freed. -/
theorem NodeRemoved.of_relink (tree : LiveTree vfs children)
    (parentLive : ∃ parentNode, vfs.vnodes parent = some parentNode) {before after : List U64}
    (list : children parent = before ++ node :: after)
    (vnodes : next.vnodes =
      Function.update (relink vfs.vnodes parent before (nextOf vfs.vnodes node)) node none)
    (root : next.root = vfs.root) (supply : next.supply = vfs.supply) :
    NodeRemoved vfs children parent node next := by
  have old := tree.liveChildren parentLive
  rw [list] at old
  obtain ⟨parentNode, parentLive⟩ := parentLive
  have gone : next.vnodes node = none := by rw [vnodes, Function.update_self]
  refine ⟨gone, root, supply, ?_, ?_, ?_⟩
  · intro other different
    rw [Vfs.fields, Vfs.fields, vnodes, Function.update_of_ne different]
    exact map_relink other (fun _ _ => rfl) fun _ => rfl
  · intro found live
    have erased := old.erased (ne_of_live_dead live gone).symm
    rw [← vnodes, ← list] at erased
    obtain ⟨found', live', siblings⟩ := erased
    rw [live] at live'
    cases live'
    exact siblings.segment
  · intro other found found' notParent live liveAfter
    have different := ne_of_live_dead liveAfter gone
    rw [vnodes, Function.update_of_ne different] at liveAfter
    constructor
    · have sameChild := @map_relink vfs.vnodes parent (nextOf vfs.vnodes node) before U64
        Vnode.child other (fun isParent => absurd isParent notParent) fun _ => rfl
      rw [liveAfter, live] at sameChild
      exact Option.some_inj.mp sameChild
    · intro sibling membership
      have elsewhere := tree.not_child_of_two parentLive live notParent membership
      rw [list, List.mem_append, List.mem_cons, not_or, not_or] at elsewhere
      obtain ⟨notBefore, notNode, -⟩ := elsewhere
      rw [vnodes, nextOf_update, if_neg notNode]
      exact nextOf_relink notBefore

/-- `vfs_remove` of a child. -/
theorem vfsRemove_spec (tree : LiveTree vfs children) {parentNode : Vnode}
    (parentLive : vfs.vnodes parent = some parentNode) (membership : node ∈ children parent) :
    ∃ next, vfsRemove vfs parent node = some (0#32, next) ∧
      NodeRemoved vfs children parent node next := by
  have live : ∃ parentNode, vfs.vnodes parent = some parentNode := ⟨parentNode, parentLive⟩
  obtain ⟨before, after, list⟩ := List.append_of_mem membership
  have children := tree.liveChildren live
  rw [list] at children
  exact ⟨_, vfsRemove_erases children (tree.nonnull parentLive),
    .of_relink tree live list rfl rfl rfl⟩

end Nekonix
