import Nekonix.Library.Run
import Nekonix.Dev.Vfs.Links

/-!
# The shape of the file tree over runs

Runs of `vfs_create` and `vfs_remove` from `vfs_init` on.  As long as only
childless nodes are removed, the live vnodes stay a tree below `g_vfs_root`;
removing a directory that has children leaves them behind.
-/

namespace Nekonix

open LinkedList Transition

inductive VfsCall where
  | create (parent : U64) (name : Option (List U8)) (type : VnodeType) (perms : U32)
  | remove (parent node : U64)

def VfsCall.apply (vfs : Vfs) : VfsCall → Option Vfs
  | .create parent name type perms =>
      (vfsCreate vfs parent name type perms).map fun result => result.2.2
  | .remove parent node => (vfsRemove vfs parent node).map Prod.snd

/-- The heap before `vfs_init`. -/
def Vfs.boot (supply : List U64) : Vfs where
  vnodes := fun _ => none
  root := 0#64
  supply := supply

def Vfs.Live (vfs : Vfs) (node : U64) : Prop := ∃ vnode, vfs.vnodes node = some vnode

/-- The arguments are live, and `kmalloc` hands out no block that is in use. -/
def VfsCall.Allowed (vfs : Vfs) : VfsCall → Prop
  | .create parent _ _ _ =>
      vfs.Live parent ∧ ∀ block ∈ vfs.supply.head?, vfs.vnodes block = none
  | .remove parent node => vfs.Live parent ∧ vfs.Live node

/-- The children of a live vnode, as its pointers list them. -/
def ChildList (vnodes : U64 → Option Vnode) (parent : U64) (list : List U64) : Prop :=
  ∃ vnode, vnodes parent = some vnode ∧ Segment (nextOf vnodes) 0#64 vnode.child list

/-- A removal takes out a node without children, or finds none to take out. -/
def VfsCall.RemovesLeaf (vfs : Vfs) : VfsCall → Prop
  | .create _ _ _ _ => True
  | .remove parent node => ∀ list, ChildList vfs.vnodes parent list → node ∈ list →
      ChildList vfs.vnodes node []

def VfsStep (vfs : Vfs) (call : VfsCall) (next : Vfs) : Prop :=
  call.Allowed vfs ∧ call.apply vfs = some next

def LeafStep (vfs : Vfs) (call : VfsCall) (next : Vfs) : Prop :=
  VfsStep vfs call next ∧ call.RemovesLeaf vfs

/-- Every live vnode but the root is listed once, by its live parent alone, lists
hold live vnodes, and parents lead to the root. -/
structure TreeOfLive (vfs : Vfs) : Prop where
  lists : ∀ node, vfs.Live node → ∃ list, ChildList vfs.vnodes node list
  listed : ∀ node vnode, vfs.vnodes node = some vnode → node ≠ vfs.root →
    vfs.Live vnode.parent ∧
      ∀ list, ChildList vfs.vnodes vnode.parent list → list.count node = 1
  alone : ∀ node vnode, vfs.vnodes node = some vnode → ∀ other list,
    ChildList vfs.vnodes other list → node ∈ list → other = vnode.parent
  live : ∀ node list, ChildList vfs.vnodes node list → ∀ child ∈ list, vfs.Live child
  climbs : ∀ node, vfs.Live node → ∃ depth, Below vfs depth node

variable {vfs next : Vfs} {children : U64 → List U64} {call : VfsCall}

theorem LiveTree.childList_eq (tree : LiveTree vfs children) {node : U64} {list : List U64}
    (listing : ChildList vfs.vnodes node list) : list = children node := by
  obtain ⟨vnode, live, segment⟩ := listing
  exact segment.unique (tree.segment node vnode live)

theorem LiveTree.childList (tree : LiveTree vfs children) {node : U64} (live : vfs.Live node) :
    ChildList vfs.vnodes node (children node) := by
  obtain ⟨vnode, live⟩ := live
  exact ⟨vnode, live, tree.segment node vnode live⟩

theorem LiveTree.treeOfLive (tree : LiveTree vfs children) : TreeOfLive vfs where
  lists := fun node live => ⟨children node, tree.childList live⟩
  listed := by
    intro node vnode live notRoot
    obtain ⟨membership, above⟩ := tree.listed node vnode live notRoot
    refine ⟨above, ?_⟩
    intro list listing
    rw [tree.childList_eq listing]
    obtain ⟨parentNode, parentLive⟩ := above
    exact List.count_eq_one_of_mem (tree.segment _ parentNode parentLive).nodup membership
  alone := by
    intro node vnode live other list listing membership
    rw [tree.childList_eq listing] at membership
    obtain ⟨otherNode, otherLive, -⟩ := listing
    obtain ⟨found, foundLive, parent⟩ := tree.child other otherNode node otherLive membership
    rw [live] at foundLive
    cases foundLive
    exact parent.symm
  live := by
    intro node list listing child membership
    rw [tree.childList_eq listing] at membership
    obtain ⟨vnode, live, -⟩ := listing
    obtain ⟨found, foundLive, -⟩ := tree.child node vnode child live membership
    exact ⟨found, foundLive⟩
  climbs := by
    rintro node ⟨vnode, live⟩
    exact tree.climbs node vnode live

/-- A creation returns and leaves a tree. -/
theorem LiveTree.create (tree : LiveTree vfs children) {parent : U64} (live : vfs.Live parent)
    (fresh : ∀ block ∈ vfs.supply.head?, vfs.vnodes block = none) (name : Option (List U8))
    (type : VnodeType) (perms : U32) :
    ∃ next, (VfsCall.create parent name type perms).apply vfs = some next ∧
      ∃ children', LiveTree next children' := by
  obtain ⟨parentNode, parentLive⟩ := live
  simp only [VfsCall.apply]
  rcases vfsCreate_spec tree parentLive fresh name type perms with
    ⟨text, made, copy, next, -, result, created⟩ | ⟨next, result, vnodes, root⟩
  · exact ⟨next, by rw [result]; rfl, _, created.tree tree parentLive⟩
  · exact ⟨next, by rw [result]; rfl, _, tree.of_links (fun node => by rw [vnodes]) root⟩

/-- A removal returns, and leaves a tree if the node it takes out has no children. -/
theorem LiveTree.remove (tree : LiveTree vfs children) {parent node : U64}
    (parentLive : vfs.Live parent) (live : vfs.Live node) :
    ∃ next, (VfsCall.remove parent node).apply vfs = some next ∧
      ((VfsCall.remove parent node).RemovesLeaf vfs → ∃ children', LiveTree next children') := by
  have listing := tree.childList parentLive
  have siblings := tree.liveChildren parentLive
  obtain ⟨parentNode, parentLive⟩ := parentLive
  obtain ⟨vnode, live⟩ := live
  simp only [VfsCall.apply]
  by_cases membership : node ∈ children parent
  · obtain ⟨next, taken, removed⟩ := vfsRemove_spec tree parentLive membership
    refine ⟨next, by rw [taken]; rfl, ?_⟩
    intro leaf
    have childless := (tree.childList_eq (leaf _ listing membership)).symm
    have notRoot : node ≠ vfs.root := by
      rintro rfl
      exact tree.root_not_child parentLive membership
    obtain ⟨found, foundLive, below⟩ := tree.child parent parentNode node parentLive membership
    rw [live] at foundLive
    cases foundLive
    exact ⟨_, removed.tree tree live notRoot below childless⟩
  · exact ⟨vfs, by rw [vfsRemove_refuses siblings membership]; rfl, fun _ => ⟨_, tree⟩⟩

theorem LiveTree.returns (tree : LiveTree vfs children) (allowed : call.Allowed vfs) :
    ∃ next, call.apply vfs = some next := by
  cases call with
  | create parent name type perms =>
      obtain ⟨next, applied, -⟩ := tree.create allowed.1 allowed.2 name type perms
      exact ⟨next, applied⟩
  | remove parent node =>
      obtain ⟨next, applied, -⟩ := tree.remove allowed.1 allowed.2
      exact ⟨next, applied⟩

theorem LiveTree.step (tree : LiveTree vfs children) (step : LeafStep vfs call next) :
    ∃ children', LiveTree next children' := by
  obtain ⟨⟨allowed, applied⟩, leaf⟩ := step
  cases call with
  | create parent name type perms =>
      obtain ⟨found, applied', kept⟩ := tree.create allowed.1 allowed.2 name type perms
      rw [applied] at applied'
      cases applied'
      exact kept
  | remove parent node =>
      obtain ⟨found, applied', kept⟩ := tree.remove allowed.1 allowed.2
      rw [applied] at applied'
      cases applied'
      exact kept leaf

/-- `vfs_init` makes the root, alone. -/
theorem vfsInit_boot {supply : List U64} (made : (vfsInit (Vfs.boot supply)).1 = 0#32) :
    ∃ node copy, node ≠ 0#64 ∧ (vfsInit (Vfs.boot supply)).2.root = node ∧
      (vfsInit (Vfs.boot supply)).2.vnodes =
        Function.update (fun _ => none) node (some (rootVnode ⟨copy, rootName⟩)) := by
  cases supply with
  | nil => exact absurd made (by decide)
  | cons node supply =>
      by_cases isNull : node = 0#64
      · simp [vfsInit, Vfs.boot, Vfs.kmalloc, isNull] at made
      · cases supply with
        | nil =>
            exact ⟨node, 0#64, isNull, by simp [vfsInit, Vfs.boot, Vfs.kmalloc, isNull],
              by simp [vfsInit, Vfs.boot, Vfs.kmalloc, isNull, Vfs.store]⟩
        | cons copy supply =>
            exact ⟨node, copy, isNull, by simp [vfsInit, Vfs.boot, Vfs.kmalloc, isNull],
              by simp [vfsInit, Vfs.boot, Vfs.kmalloc, isNull, Vfs.store]⟩

theorem vfsInit_tree {supply : List U64} (made : (vfsInit (Vfs.boot supply)).1 = 0#32) :
    LiveTree (vfsInit (Vfs.boot supply)).2 fun _ => [] := by
  obtain ⟨node, copy, nonnull, root, vnodes⟩ := vfsInit_boot made
  have rootLive : (vfsInit (Vfs.boot supply)).2.vnodes node =
      some (rootVnode ⟨copy, rootName⟩) := by
    rw [vnodes, Function.update_self]
  have rootOnly : ∀ other found, (vfsInit (Vfs.boot supply)).2.vnodes other = some found →
      other = node ∧ found = rootVnode ⟨copy, rootName⟩ := by
    intro other found live
    rw [vnodes] at live
    by_cases isRoot : other = node
    · rw [isRoot, Function.update_self] at live
      exact ⟨isRoot, (Option.some.inj live).symm⟩
    · rw [Function.update_of_ne isRoot] at live
      cases live
  refine
    { root := ⟨_, root ▸ rootLive, rfl⟩
      null := ?null
      segment := ?segment
      child := fun _ _ _ _ membership => by cases membership
      listed := ?listed
      climbs := ?climbs }
  case null =>
    rw [vnodes, Function.update_of_ne nonnull.symm]
  case segment =>
    intro other found live
    obtain ⟨-, rfl⟩ := rootOnly other found live
    rfl
  case listed =>
    intro other found live notRoot
    exact (notRoot ((rootOnly other found live).1.trans root.symm)).elim
  case climbs =>
    intro other found live
    refine ⟨0, ?_⟩
    rw [(rootOnly other found live).1, ← root]
    exact .root

/-- In every run that removes childless nodes only, the live vnodes stay a tree
below the root, and every further call on live nodes returns. -/
theorem vfs_stays_tree {supply : List U64} {calls : List VfsCall} {final : Vfs}
    (made : (vfsInit (Vfs.boot supply)).1 = 0#32)
    (run : Run LeafStep (vfsInit (Vfs.boot supply)).2 calls final) :
    TreeOfLive final ∧
      ∀ call : VfsCall, call.Allowed final → ∃ next, call.apply final = some next := by
  have tree : ∃ children, LiveTree final children := by
    refine run.invariant (fun vfs => ∃ children, LiveTree vfs children)
      ⟨_, vfsInit_tree made⟩ ?_
    rintro vfs call next ⟨children, tree⟩ step
    exact tree.step step
  obtain ⟨children, tree⟩ := tree
  exact ⟨tree.treeOfLive, fun call allowed => tree.returns allowed⟩

/-- Blocks for a few nodes and their names. -/
def sampleSupply : List U64 := [0x10#64, 0x20#64, 0x30#64, 0x40#64, 0x50#64, 0x60#64]

def sampleDirectory : VfsCall := .create 0x10#64 (some [charLowerA]) .directory rootPermissions

def sampleFileBelow : VfsCall := .create 0x30#64 (some [charLowerX]) .file rootPermissions

theorem sampleDirectory_step : ∃ next, VfsStep (vfsInit (Vfs.boot sampleSupply)).2
    sampleDirectory next ∧ next.vnodes 0x50#64 = none := by
  refine ⟨_, ⟨⟨⟨_, rfl⟩, ?_⟩, rfl⟩, rfl⟩
  intro block isHead
  cases isHead
  rfl

theorem vfs_stays_tree_directory : ∃ final,
    Run LeafStep (vfsInit (Vfs.boot sampleSupply)).2 [sampleDirectory] final ∧
      TreeOfLive final := by
  obtain ⟨next, step, -⟩ := sampleDirectory_step
  have run := @Run.single _ _ LeafStep _ _ _ ⟨step, trivial⟩
  exact ⟨next, run, (vfs_stays_tree rfl run).1⟩

/-- Removing a directory leaves its child with a dead parent. -/
theorem vfs_remove_orphans : ¬∀ (supply : List U64) (calls : List VfsCall) (final : Vfs),
    (vfsInit (Vfs.boot supply)).1 = 0#32 →
    Run VfsStep (vfsInit (Vfs.boot supply)).2 calls final → TreeOfLive final := by
  intro always
  have first : ∀ block ∈ ([0x30#64, 0x40#64, 0x50#64, 0x60#64] : List U64).head?,
      (vfsInit (Vfs.boot sampleSupply)).2.vnodes block = none := by
    intro block isHead
    cases isHead
    rfl
  have run : ∃ final, Run VfsStep (vfsInit (Vfs.boot sampleSupply)).2
      [sampleDirectory, sampleFileBelow, .remove 0x10#64 0x30#64] final ∧
      (∃ vnode, final.vnodes 0x50#64 = some vnode ∧ vnode.parent = 0x30#64) ∧
      final.root = 0x10#64 ∧ final.vnodes 0x30#64 = none := by
    refine ⟨_, ((Run.nil.snoc ⟨⟨⟨_, rfl⟩, first⟩, rfl⟩).snoc ⟨⟨⟨_, rfl⟩, ?_⟩, rfl⟩).snoc
      ⟨⟨⟨_, rfl⟩, ⟨_, rfl⟩⟩, rfl⟩, ⟨_, rfl, rfl⟩, rfl, rfl⟩
    intro block isHead
    cases isHead
    rfl
  obtain ⟨final, run, ⟨vnode, live, parent⟩, root, dead⟩ := run
  have tree := always sampleSupply _ final rfl run
  have notRoot : (0x50#64 : U64) ≠ final.root := by
    rw [root]
    decide
  obtain ⟨found, parentLive⟩ := (tree.listed _ vnode live notRoot).1
  rw [parent, dead] at parentLive
  cases parentLive

end Nekonix
