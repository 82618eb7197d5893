import Nekonix.Library.LinkedList
import Nekonix.Dev.Vfs

/-!
# Trees of live vnodes

A logical list of children for every live vnode, beside the `child` and `next`
pointers that hold it.  The walks of `vfs.c` along siblings are what they are on
these lists, and creation and removal keep them.
-/

namespace Nekonix

open LinkedList

/-- Where `next` leads; from a dead vnode nowhere. -/
def nextOf (vnodes : U64 → Option Vnode) (node : U64) : U64 :=
  match vnodes node with
  | none => 0#64
  | some vnode => vnode.next

/-- The siblings from `start` on, all of them live. -/
structure Siblings (vnodes : U64 → Option Vnode) (start : U64) (list : List U64) : Prop where
  segment : Segment (nextOf vnodes) 0#64 start list
  live : ∀ node ∈ list, ∃ vnode, vnodes node = some vnode

variable {vnodes : U64 → Option Vnode} {start node : U64} {list : List U64} {vnode : Vnode}

theorem nextOf_live (live : vnodes node = some vnode) : nextOf vnodes node = vnode.next := by
  rw [nextOf, live]

theorem nextOf_dead (dead : vnodes node = none) : nextOf vnodes node = 0#64 := by
  rw [nextOf, dead]

namespace Siblings

theorem tail {first : U64} {rest : List U64} (siblings : Siblings vnodes start (first :: rest))
    (live : vnodes first = some vnode) : Siblings vnodes vnode.next rest := by
  refine ⟨?_, fun node later => siblings.live node (List.mem_cons_of_mem _ later)⟩
  have further := siblings.segment.2.2
  rwa [nextOf_live live] at further

/-- No list of siblings is longer than the walks can follow. -/
theorem short (siblings : Siblings vnodes start list) : list.length < 2 ^ 64 :=
  siblings.segment.length_lt_width

end Siblings

/-- The walk to the end of a list. -/
theorem lastSibling_eq {before : List U64} {last : U64}
    (siblings : Siblings vnodes start (before ++ [last])) {fuel : Nat}
    (enough : before.length < fuel) : lastSibling vnodes fuel start = some last := by
  induction before generalizing start fuel with
  | nil =>
      obtain ⟨vnode, live⟩ := siblings.live last (by simp)
      obtain ⟨rfl, -, ends⟩ := siblings.segment
      rw [segment_nil, nextOf_live live] at ends
      cases fuel with
      | zero => cases enough
      | succ fuel => simp [lastSibling, live, ends]
  | cons first before inductionHypothesis =>
      obtain ⟨vnode, live⟩ := siblings.live first (by simp)
      obtain rfl : start = first := siblings.segment.1
      have further := siblings.tail live
      have notEnd : vnode.next ≠ 0#64 := by
        intro ends
        have empty := further.segment
        rw [ends] at empty
        exact absurd empty.eq_nil (by simp)
      cases fuel with
      | zero => cases enough
      | succ fuel =>
          have rest := inductionHypothesis further (Nat.lt_of_succ_lt_succ enough)
          simp [lastSibling, live, notEnd, rest]

/-- The search of `vfs_remove` where it finds the node. -/
theorem siblingBefore_found {before after : List U64}
    (siblings : Siblings vnodes start (before ++ node :: after)) {prev : U64} {fuel : Nat}
    (enough : before.length < fuel) :
    siblingBefore vnodes node fuel prev start = some (some (before.getLastD prev)) := by
  induction before generalizing start prev fuel with
  | nil =>
      obtain ⟨rfl, notNull, -⟩ := siblings.segment
      cases fuel with
      | zero => cases enough
      | succ fuel => simp [siblingBefore, notNull]
  | cons first before inductionHypothesis =>
      obtain ⟨vnode, live⟩ := siblings.live first (by simp)
      have nodup := siblings.segment.nodup
      obtain ⟨rfl, notNull, -⟩ := siblings.segment
      have different : start ≠ node := by
        rintro rfl
        exact (List.nodup_cons.mp nodup).1 (by simp)
      cases fuel with
      | zero => cases enough
      | succ fuel =>
          have rest := @inductionHypothesis _ (siblings.tail live) start fuel
            (Nat.lt_of_succ_lt_succ enough)
          simp only [siblingBefore, if_neg notNull, if_neg different, live, Option.bind_eq_bind,
            Option.bind_some, rest]
          cases before <;> rfl

/-- The search of `vfs_remove` where it ends without the node. -/
theorem siblingBefore_absent (siblings : Siblings vnodes start list) (absent : node ∉ list)
    {prev : U64} {fuel : Nat} (enough : list.length < fuel) :
    siblingBefore vnodes node fuel prev start = some none := by
  induction list generalizing start prev fuel with
  | nil =>
      obtain rfl : start = 0#64 := siblings.segment
      cases fuel with
      | zero => cases enough
      | succ fuel => simp [siblingBefore]
  | cons first rest inductionHypothesis =>
      obtain ⟨vnode, live⟩ := siblings.live first (by simp)
      obtain ⟨rfl, notNull, -⟩ := siblings.segment
      have different : start ≠ node := fun same => absent (by simp [same])
      cases fuel with
      | zero => cases enough
      | succ fuel =>
          have further := @inductionHypothesis _ (siblings.tail live)
            (fun later => absent (List.mem_cons_of_mem _ later)) start fuel
            (Nat.lt_of_succ_lt_succ enough)
          simp only [siblingBefore, if_neg notNull, if_neg different, live, Option.bind_eq_bind,
            Option.bind_some, further]

/-- The search by name takes the first sibling that has it. -/
theorem searchSiblings_eq {name : List U8} (siblings : Siblings vnodes start list) {fuel : Nat}
    (enough : list.length < fuel) :
    searchSiblings vnodes name fuel start =
      some ((list.find? fun node =>
        (vnodes node).any fun vnode => strcmp vnode.name.text name = 0).getD 0#64) := by
  induction list generalizing start fuel with
  | nil =>
      obtain rfl : start = 0#64 := siblings.segment
      cases fuel with
      | zero => cases enough
      | succ fuel => simp [searchSiblings]
  | cons first rest inductionHypothesis =>
      obtain ⟨vnode, live⟩ := siblings.live first (by simp)
      obtain ⟨rfl, notNull, -⟩ := siblings.segment
      cases fuel with
      | zero => cases enough
      | succ fuel =>
          have further := inductionHypothesis (siblings.tail live)
            (Nat.lt_of_succ_lt_succ enough)
          by_cases named : strcmp vnode.name.text name = 0
          · simp [searchSiblings, notNull, live, named]
          · simp [searchSiblings, notNull, live, named, further]

/-- The pointers of a vnode. -/
structure Links where
  parent : U64
  next : U64
  child : U64

def Vnode.links (vnode : Vnode) : Links := ⟨vnode.parent, vnode.next, vnode.child⟩

/-- `node` is `depth` steps below the root. -/
inductive Below (vfs : Vfs) : Nat → U64 → Prop where
  | root : Below vfs 0 vfs.root
  | child {depth node vnode} :
      vfs.vnodes node = some vnode → node ≠ vfs.root → Below vfs depth vnode.parent →
      Below vfs (depth + 1) node

/-- A node is `depth` steps below the root for one depth only. -/
theorem Below.unique {vfs : Vfs} {depth depth' : Nat} (below : Below vfs depth node)
    (below' : Below vfs depth' node) : depth = depth' := by
  induction below generalizing depth' with
  | root =>
      cases below' with
      | root => rfl
      | child _ notRoot _ => exact (notRoot rfl).elim
  | child live notRoot _ inductionHypothesis =>
      cases below' with
      | root => exact (notRoot rfl).elim
      | child live' _ further =>
          rw [live] at live'
          cases live'
          rw [inductionHypothesis further]

/-- The live vnodes form a tree in which `children` lists the children of each. -/
structure LiveTree (vfs : Vfs) (children : U64 → List U64) : Prop where
  root : ∃ vnode, vfs.vnodes vfs.root = some vnode ∧ vnode.parent = 0#64
  null : vfs.vnodes 0#64 = none
  segment : ∀ node vnode, vfs.vnodes node = some vnode →
    Segment (nextOf vfs.vnodes) 0#64 vnode.child (children node)
  child : ∀ node vnode other, vfs.vnodes node = some vnode → other ∈ children node →
    ∃ found, vfs.vnodes other = some found ∧ found.parent = node
  listed : ∀ node vnode, vfs.vnodes node = some vnode → node ≠ vfs.root →
    node ∈ children vnode.parent ∧ ∃ found, vfs.vnodes vnode.parent = some found
  climbs : ∀ node vnode, vfs.vnodes node = some vnode → ∃ depth, Below vfs depth node

namespace LiveTree

variable {vfs : Vfs} {children : U64 → List U64}

theorem nonnull (tree : LiveTree vfs children) (live : vfs.vnodes node = some vnode) :
    node ≠ 0#64 := by
  rintro rfl
  rw [tree.null] at live
  cases live

theorem siblings (tree : LiveTree vfs children) (live : vfs.vnodes node = some vnode) :
    Siblings vfs.vnodes vnode.child (children node) where
  segment := tree.segment node vnode live
  live := fun other membership =>
    (tree.child node vnode other live membership).imp fun _ found => found.1

/-- The root is nobody's child. -/
theorem root_not_child (tree : LiveTree vfs children) (live : vfs.vnodes node = some vnode) :
    vfs.root ∉ children node := by
  intro membership
  obtain ⟨rootNode, rootLive, noParent⟩ := tree.root
  obtain ⟨found, foundLive, parent⟩ := tree.child node vnode _ live membership
  rw [rootLive] at foundLive
  cases foundLive
  exact tree.nonnull live (parent.symm.trans noParent)

/-- The tree depends on the pointers alone. -/
theorem of_links {next : Vfs} (tree : LiveTree vfs children)
    (links : ∀ node, (next.vnodes node).map Vnode.links = (vfs.vnodes node).map Vnode.links)
    (sameRoot : next.root = vfs.root) : LiveTree next children := by
  have live : ∀ node vnode, vfs.vnodes node = some vnode →
      ∃ found, next.vnodes node = some found ∧ found.links = vnode.links := by
    intro node vnode live
    have same := links node
    rw [live, Option.map_some, Option.map_eq_some_iff] at same
    exact same
  have old : ∀ node found, next.vnodes node = some found →
      ∃ vnode, vfs.vnodes node = some vnode ∧ found.links = vnode.links := by
    intro node found live
    have same := links node
    rw [live, Option.map_some, eq_comm, Option.map_eq_some_iff] at same
    obtain ⟨vnode, liveBefore, equal⟩ := same
    exact ⟨vnode, liveBefore, equal.symm⟩
  have nexts : ∀ node, nextOf next.vnodes node = nextOf vfs.vnodes node := by
    intro node
    cases found : vfs.vnodes node with
    | none =>
        have dead : next.vnodes node = none := by
          have same := links node
          rw [found, Option.map_none, Option.map_eq_none_iff] at same
          exact same
        rw [nextOf_dead found, nextOf_dead dead]
    | some vnode =>
        obtain ⟨after, liveAfter, same⟩ := live node vnode found
        rw [nextOf_live found, nextOf_live liveAfter]
        exact congrArg Links.next same
  have below : ∀ depth node, Below vfs depth node → Below next depth node := by
    intro depth node below
    induction below with
    | root =>
        rw [← sameRoot]
        exact Below.root
    | child liveBefore notRoot _ inductionHypothesis =>
        obtain ⟨after, liveAfter, same⟩ := live _ _ liveBefore
        have parent : after.parent = _ := congrArg Links.parent same
        exact Below.child liveAfter (sameRoot ▸ notRoot) (parent.symm ▸ inductionHypothesis)
  refine ⟨?rootLive, ?null, ?segment, ?childLive, ?listed, ?climbs⟩
  case rootLive =>
    obtain ⟨rootNode, rootLive, noParent⟩ := tree.root
    obtain ⟨after, liveAfter, same⟩ := live _ _ rootLive
    have parent : after.parent = rootNode.parent := congrArg Links.parent same
    rw [sameRoot]
    exact ⟨after, liveAfter, parent.trans noParent⟩
  case null =>
    have same := links 0#64
    rw [tree.null, Option.map_none, Option.map_eq_none_iff] at same
    exact same
  case segment =>
    intro node found liveAfter
    obtain ⟨vnode, liveBefore, same⟩ := old node found liveAfter
    have child : found.child = vnode.child := congrArg Links.child same
    rw [child]
    exact (tree.segment node vnode liveBefore).congr fun cell _ => nexts cell
  case childLive =>
    intro node found other liveAfter membership
    obtain ⟨vnode, liveBefore, -⟩ := old node found liveAfter
    obtain ⟨child, childLive, childParent⟩ := tree.child node vnode other liveBefore membership
    obtain ⟨after, childAfter, same⟩ := live other child childLive
    have parent : after.parent = child.parent := congrArg Links.parent same
    exact ⟨after, childAfter, parent.trans childParent⟩
  case listed =>
    intro node found liveAfter notRoot
    obtain ⟨vnode, liveBefore, same⟩ := old node found liveAfter
    have parent : found.parent = vnode.parent := congrArg Links.parent same
    obtain ⟨membership, above, aboveLive⟩ := tree.listed node vnode liveBefore (sameRoot ▸ notRoot)
    obtain ⟨aboveAfter, aboveLiveAfter, -⟩ := live _ above aboveLive
    rw [parent]
    exact ⟨membership, aboveAfter, aboveLiveAfter⟩
  case climbs =>
    intro node found liveAfter
    obtain ⟨vnode, liveBefore, -⟩ := old node found liveAfter
    exact (tree.climbs node vnode liveBefore).imp fun depth => below depth node

end LiveTree

end Nekonix
