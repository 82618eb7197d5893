import Nekonix.Dev.Vfs.Lookup

/-!
# Paths made by `vfs_get_path`

The names of the ancestors from the parent upwards, the root's name and then the
node's own, without separators.  The only slash is the root's name, so the path
has at most two components and leads back to nodes at most two steps below the
root.
-/

namespace Nekonix

open LinkedList

/-- The nodes below the root form a tree in which `children` lists the children of each. -/
structure RootedTree (vfs : Vfs) (children : U64 → List U64) : Prop where
  root : ∃ vnode, vfs.vnodes vfs.root = some vnode ∧ vnode.parent = 0#64
  null : vfs.vnodes 0#64 = none
  segment : ∀ depth node vnode, Below vfs depth node → vfs.vnodes node = some vnode →
    Segment (nextOf vfs.vnodes) 0#64 vnode.child (children node)
  child : ∀ depth node other, Below vfs depth node → other ∈ children node →
    ∃ found, vfs.vnodes other = some found ∧ found.parent = node
  listed : ∀ depth node vnode, Below vfs (depth + 1) node → vfs.vnodes node = some vnode →
    node ∈ children vnode.parent

theorem LiveTree.rooted {vfs : Vfs} {children : U64 → List U64} (tree : LiveTree vfs children) :
    RootedTree vfs children where
  root := tree.root
  null := tree.null
  segment := fun _ node vnode _ live => tree.segment node vnode live
  child := by
    intro depth node other below membership
    cases below with
    | root =>
        obtain ⟨rootNode, rootLive, -⟩ := tree.root
        exact tree.child _ rootNode other rootLive membership
    | child live _ _ => exact tree.child node _ other live membership
  listed := by
    intro depth node vnode below live
    cases below with
    | child _ notRoot _ => exact (tree.listed node vnode live notRoot).1

/-- The root is called `/`; other nodes have proper names, siblings different ones. -/
structure Named (vfs : Vfs) (children : U64 → List U64) : Prop where
  root : ∀ vnode, vfs.vnodes vfs.root = some vnode → vnode.name.text = rootName
  proper : ∀ depth node vnode, Below vfs (depth + 1) node → vfs.vnodes node = some vnode →
    ProperName vnode.name.text
  unique : ∀ depth node first second firstNode secondNode, Below vfs depth node →
    first ∈ children node → second ∈ children node → vfs.vnodes first = some firstNode →
    vfs.vnodes second = some secondNode → firstNode.name.text = secondNode.name.text →
    first = second

variable {vfs : Vfs} {children : U64 → List U64} {depth : Nat} {node : U64} {vnode : Vnode}

namespace RootedTree

theorem live (tree : RootedTree vfs children) (below : Below vfs depth node) :
    ∃ vnode, vfs.vnodes node = some vnode := by
  cases below with
  | root =>
      obtain ⟨vnode, live, -⟩ := tree.root
      exact ⟨vnode, live⟩
  | child live _ _ => exact ⟨_, live⟩

theorem nonnull (tree : RootedTree vfs children) (below : Below vfs depth node) :
    node ≠ 0#64 := by
  rintro rfl
  obtain ⟨vnode, live⟩ := tree.live below
  rw [tree.null] at live
  cases live

theorem child_below (tree : RootedTree vfs children) (below : Below vfs depth node) {other : U64}
    (membership : other ∈ children node) : Below vfs (depth + 1) other := by
  obtain ⟨found, live, parent⟩ := tree.child depth node other below membership
  refine .child live ?_ (parent ▸ below)
  rintro rfl
  obtain ⟨rootNode, rootLive, noParent⟩ := tree.root
  rw [rootLive] at live
  cases live
  exact tree.nonnull below (parent.symm.trans noParent)

theorem siblings (tree : RootedTree vfs children) (below : Below vfs depth node)
    (live : vfs.vnodes node = some vnode) :
    Siblings vfs.vnodes vnode.child (children node) where
  segment := tree.segment depth node vnode below live
  live := fun other membership =>
    (tree.child depth node other below membership).imp fun _ found => found.1

/-- A search by name ends at a child or at NULL. -/
theorem search (tree : RootedTree vfs children) (below : Below vfs depth node) (name : List U8) :
    ∃ result, vfsSearchNode vfs node name = some result ∧
      (result = 0#64 ∨ result ∈ children node) := by
  obtain ⟨vnode, live⟩ := tree.live below
  have siblings := tree.siblings below live
  rw [vfsSearchNode, if_neg (tree.nonnull below), live, Option.bind_eq_bind, Option.bind_some,
    searchSiblings_eq siblings siblings.short]
  refine ⟨_, rfl, ?_⟩
  cases found : (children node).find? fun node =>
      (vfs.vnodes node).any fun vnode => strcmp vnode.name.text name = 0 with
  | none => exact Or.inl rfl
  | some child => exact Or.inr (List.mem_of_find?_eq_some found)

/-- A search by the name of a child finds it. -/
theorem search_child (tree : RootedTree vfs children) (named : Named vfs children)
    (below : Below vfs depth node) {other : U64} {otherNode : Vnode}
    (membership : other ∈ children node) (otherLive : vfs.vnodes other = some otherNode) :
    vfsSearchNode vfs node otherNode.name.text = some other := by
  obtain ⟨vnode, live⟩ := tree.live below
  have siblings := tree.siblings below live
  have proper := named.proper depth other otherNode (tree.child_below below membership) otherLive
  rw [vfsSearchNode, if_neg (tree.nonnull below), live, Option.bind_eq_bind, Option.bind_some,
    searchSiblings_eq siblings siblings.short]
  cases found : (children node).find? fun node =>
      (vfs.vnodes node).any fun vnode => strcmp vnode.name.text otherNode.name.text = 0 with
  | none =>
      have missed := List.find?_eq_none.mp found other membership
      have same := (strcmp_eq_zero_iff proper.nonzero proper.nonzero).mpr rfl
      simp [otherLive, same] at missed
  | some child =>
      have childIn := List.mem_of_find?_eq_some found
      have matched := List.find?_some found
      obtain ⟨childNode, childLive⟩ := siblings.live child childIn
      have childProper := named.proper depth child childNode (tree.child_below below childIn)
        childLive
      rw [childLive, Option.any_some, decide_eq_true_eq,
        strcmp_eq_zero_iff childProper.nonzero proper.nonzero] at matched
      rw [Option.getD_some,
        named.unique depth node child other childNode otherNode below childIn membership childLive
          otherLive matched]

end RootedTree

/-! The way up -/

def parentOf (vnodes : U64 → Option Vnode) (node : U64) : U64 :=
  match vnodes node with
  | none => 0#64
  | some vnode => vnode.parent

def nameOf (vnodes : U64 → Option Vnode) (node : U64) : List U8 :=
  match vnodes node with
  | none => []
  | some vnode => vnode.name.text

theorem parentOf_live (live : vfs.vnodes node = some vnode) :
    parentOf vfs.vnodes node = vnode.parent := by
  rw [parentOf, live]

theorem nameOf_live (live : vfs.vnodes node = some vnode) :
    nameOf vfs.vnodes node = vnode.name.text := by
  rw [nameOf, live]

/-- The nodes from `node` up to the root: `upper` and then the root. -/
structure Lineage (vfs : Vfs) (depth : Nat) (node : U64) (upper : List U64) : Prop where
  segment : Segment (parentOf vfs.vnodes) 0#64 node (upper ++ [vfs.root])
  length : upper.length = depth
  live : ∀ other ∈ upper ++ [vfs.root], ∃ vnode, vfs.vnodes other = some vnode
  below : ∀ other ∈ upper, ∃ depth, Below vfs (depth + 1) other

theorem RootedTree.lineage (tree : RootedTree vfs children) (below : Below vfs depth node) :
    ∃ upper, Lineage vfs depth node upper := by
  induction below with
  | root =>
      obtain ⟨rootNode, rootLive, noParent⟩ := tree.root
      refine ⟨[], ?_, rfl, ?_, by simp⟩
      · refine ⟨rfl, tree.nonnull .root, ?_⟩
        rw [segment_nil, parentOf_live rootLive, noParent]
      · intro other membership
        rw [List.mem_singleton.mp membership]
        exact ⟨rootNode, rootLive⟩
  | @child depth node vnode live notRoot above inductionHypothesis =>
      have below : Below vfs (depth + 1) node := .child live notRoot above
      obtain ⟨upper, lineage⟩ := inductionHypothesis
      refine ⟨node :: upper, ?_, ?_, ?_, ?_⟩
      · refine ⟨rfl, tree.nonnull below, ?_⟩
        rw [parentOf_live live]
        exact lineage.segment
      · rw [List.length_cons, lineage.length]
      · intro other membership
        rcases List.mem_cons.mp membership with rfl | later
        · exact ⟨vnode, live⟩
        · exact lineage.live other later
      · intro other membership
        rcases List.mem_cons.mp membership with rfl | later
        · exact ⟨depth, below⟩
        · exact lineage.below other later

theorem addNameLengths_eq {current : U64} {list : List U64}
    (segment : Segment (parentOf vfs.vnodes) 0#64 current list)
    (live : ∀ other ∈ list, ∃ vnode, vfs.vnodes other = some vnode) {fuel : Nat}
    (enough : list.length < fuel) (pathLength : Nat) :
    addNameLengths vfs.vnodes fuel current pathLength =
      some (pathLength + (list.map fun other => (nameOf vfs.vnodes other).length + 1).sum) := by
  induction list generalizing current fuel pathLength with
  | nil =>
      obtain rfl : current = 0#64 := segment
      cases fuel with
      | zero => cases enough
      | succ fuel => simp [addNameLengths]
  | cons first rest inductionHypothesis =>
      obtain ⟨vnode, firstLive⟩ := live first (List.mem_cons_self ..)
      obtain ⟨rfl, notNull, further⟩ := segment
      rw [parentOf_live firstLive] at further
      cases fuel with
      | zero => cases enough
      | succ fuel =>
          rw [addNameLengths, if_neg notNull, firstLive, Option.bind_eq_bind, Option.bind_some,
            inductionHypothesis further
              (fun other later => live other (List.mem_cons_of_mem _ later))
              (Nat.lt_of_succ_lt_succ enough),
            List.map_cons, List.sum_cons, nameOf_live firstLive, Nat.add_assoc]

/-- With room for the whole name, `snprintf` appends it. -/
theorem appendName_eq {pathLength : Nat} {path name : List U8}
    (room : path.length + name.length ≤ pathLength) :
    appendName pathLength path name = path ++ name := by
  rw [appendName, List.take_of_length_le (by omega)]

theorem appendNames_eq {current : U64} {list : List U64}
    (segment : Segment (parentOf vfs.vnodes) 0#64 current list)
    (live : ∀ other ∈ list, ∃ vnode, vfs.vnodes other = some vnode) {fuel pathLength : Nat}
    (enough : list.length < fuel) {path : List U8}
    (room : path.length + (list.map fun other => (nameOf vfs.vnodes other).length + 1).sum ≤
      pathLength) :
    appendNames vfs.vnodes pathLength fuel current path =
      some (path ++ (list.map (nameOf vfs.vnodes)).flatten) := by
  induction list generalizing current fuel path with
  | nil =>
      obtain rfl : current = 0#64 := segment
      cases fuel with
      | zero => cases enough
      | succ fuel => simp [appendNames]
  | cons first rest inductionHypothesis =>
      obtain ⟨vnode, firstLive⟩ := live first (List.mem_cons_self ..)
      obtain ⟨rfl, notNull, further⟩ := segment
      rw [parentOf_live firstLive] at further
      rw [List.map_cons, List.sum_cons, nameOf_live firstLive] at room
      cases fuel with
      | zero => cases enough
      | succ fuel =>
          rw [appendNames, if_neg notNull, firstLive, Option.bind_eq_bind, Option.bind_some,
            appendName_eq (by omega),
            inductionHypothesis further
              (fun other later => live other (List.mem_cons_of_mem _ later))
              (Nat.lt_of_succ_lt_succ enough) (by rw [List.length_append]; omega),
            List.map_cons, List.flatten_cons, nameOf_live firstLive, List.append_assoc]

/-- The path is the names of the ancestors, nearest first, and the node's own. -/
theorem vfsGetPath_eq {list : List U64} {first : U64} {supply : List U64}
    (nonnull : node ≠ 0#64) (live : vfs.vnodes node = some vnode)
    (segment : Segment (parentOf vfs.vnodes) 0#64 vnode.parent list)
    (ancestorsLive : ∀ other ∈ list, ∃ vnode, vfs.vnodes other = some vnode)
    (supplied : vfs.supply = first :: supply) (firstNonnull : first ≠ 0#64) :
    vfsGetPath vfs node =
      some (some ((list.map (nameOf vfs.vnodes)).flatten ++ vnode.name.text),
        { vfs with supply }) := by
  have short : list.length < 2 ^ 64 := segment.length_lt_width
  have flat : ((list.map (nameOf vfs.vnodes)).flatten).length ≤
      (list.map fun other => (nameOf vfs.vnodes other).length + 1).sum := by
    clear short ancestorsLive segment
    induction list with
    | nil => simp
    | cons first rest inductionHypothesis =>
        simp only [List.map_cons, List.flatten_cons, List.length_append, List.sum_cons]
        omega
  simp only [vfsGetPath, if_neg nonnull, live, Option.bind_eq_bind, Option.bind_some,
    addNameLengths_eq segment ancestorsLive short, Vfs.kmalloc, supplied, if_neg firstNonnull]
  rw [appendNames_eq segment ancestorsLive short (by simp), Option.bind_some, List.nil_append,
    appendName_eq (by omega)]

/-! The round trip -/

/-- Proper names one after the other are a proper name. -/
theorem properName_flatten {names : List (List U8)} (nonempty : names ≠ [])
    (proper : ∀ name ∈ names, ProperName name) : ProperName names.flatten := by
  refine ⟨?_, ?_, ?_⟩
  · cases names with
    | nil => exact (nonempty rfl).elim
    | cons name names =>
        have first := (proper name (List.mem_cons_self ..)).nonempty
        intro empty
        rw [List.flatten_cons, List.append_eq_nil_iff] at empty
        exact first empty.1
  · intro c membership
    obtain ⟨name, isName, inName⟩ := List.mem_flatten.mp membership
    exact (proper name isName).nonzero c inName
  · intro c membership
    obtain ⟨name, isName, inName⟩ := List.mem_flatten.mp membership
    exact (proper name isName).noSlash c inName

/-- The path of a node, by its depth. -/
inductive PathShape (vfs : Vfs) (vnode : Vnode) : (depth : Nat) → (path : List U8) → Prop where
  | root : PathShape vfs vnode 0 rootName
  | child : PathShape vfs vnode 1 (charSlash :: vnode.name.text)
  | deeper {depth : Nat} {joined : List U8} : ProperName joined →
      (depth = 0 → joined = nameOf vfs.vnodes vnode.parent) →
      PathShape vfs vnode (depth + 2) (joined ++ charSlash :: vnode.name.text)

theorem Named.root_eq (named : Named vfs children) (tree : RootedTree vfs children) :
    nameOf vfs.vnodes vfs.root = rootName := by
  obtain ⟨rootNode, rootLive, -⟩ := tree.root
  rw [nameOf_live rootLive, named.root rootNode rootLive]

theorem RootedTree.getPath (tree : RootedTree vfs children) (named : Named vfs children)
    (below : Below vfs depth node) (live : vfs.vnodes node = some vnode) {first : U64}
    {supply : List U64} (supplied : vfs.supply = first :: supply) (firstNonnull : first ≠ 0#64) :
    ∃ path, vfsGetPath vfs node = some (some path, { vfs with supply }) ∧
      PathShape vfs vnode depth path := by
  have nonnull := tree.nonnull below
  cases below with
  | root =>
      have noParent : vnode.parent = 0#64 := by
        obtain ⟨rootNode, rootLive, noParent⟩ := tree.root
        rw [live] at rootLive
        cases rootLive
        exact noParent
      have path := @vfsGetPath_eq _ _ _ [] _ _ nonnull live noParent (by simp) supplied
        firstNonnull
      refine ⟨_, path, ?_⟩
      rw [List.map_nil, List.flatten_nil, List.nil_append, named.root vnode live]
      exact .root
  | @child depth _ found live' notRoot above =>
      rw [live] at live'
      cases live'
      obtain ⟨upper, lineage⟩ := tree.lineage above
      have path := vfsGetPath_eq nonnull live lineage.segment lineage.live supplied firstNonnull
      refine ⟨_, path, ?_⟩
      rw [List.map_append, List.flatten_append, List.map_singleton, List.flatten_singleton,
        named.root_eq tree, List.append_assoc]
      cases upper with
      | nil =>
          obtain rfl : 0 = depth := lineage.length
          exact .child
      | cons parent upper =>
          obtain ⟨rest, rfl⟩ : ∃ rest, depth = rest + 1 := ⟨upper.length, lineage.length.symm⟩
          refine .deeper (properName_flatten (by simp) ?_) ?_
          · intro name membership
            obtain ⟨other, otherIn, rfl⟩ := List.mem_map.mp membership
            obtain ⟨otherDepth, otherBelow⟩ := lineage.below other otherIn
            obtain ⟨otherNode, otherLive⟩ := tree.live otherBelow
            rw [nameOf_live otherLive]
            exact named.proper otherDepth other otherNode otherBelow otherLive
          · rintro rfl
            have alone : upper = [] := by
              have length := lineage.length
              rw [List.length_cons] at length
              exact List.length_eq_zero_iff.mp (by omega)
            have isParent : vnode.parent = parent := lineage.segment.1
            rw [alone, isParent]
            simp

theorem PathShape.nonzero {path : List U8} (shape : PathShape vfs vnode depth path)
    (proper : 0 < depth → ProperName vnode.name.text) : ∀ c ∈ path, c ≠ 0#8 := by
  cases shape with
  | root => decide
  | child =>
      intro c membership
      rcases List.mem_cons.mp membership with rfl | later
      · decide
      · exact (proper (by omega)).nonzero c later
  | deeper joinedProper _ =>
      intro c membership
      rcases List.mem_append.mp membership with inJoined | behind
      · exact joinedProper.nonzero c inJoined
      · rcases List.mem_cons.mp behind with rfl | later
        · decide
        · exact (proper (by omega)).nonzero c later

/-- The components of the path of a node below the root: its own name, and one
for all the ancestors between. -/
theorem PathShape.tokens {path : List U8} (shape : PathShape vfs vnode (depth + 1) path)
    (proper : ProperName vnode.name.text) :
    path ≠ rootName ∧ ∃ joined, Tokens [charSlash] path (joined ++ [vnode.name.text]) ∧
      joined.length ≤ 1 ∧ (joined = [] → depth = 0) ∧
      (depth = 0 → joined = []) ∧ (depth = 1 → joined = [nameOf vfs.vnodes vnode.parent]) := by
  cases shape with
  | child =>
      refine ⟨?_, [], proper.tokens.slash, by simp, by simp, by simp, by simp⟩
      intro same
      exact proper.nonempty (by simpa [rootName] using same)
  | @deeper rest joined joinedProper single =>
      refine ⟨?_, [joined], joinedProper.tokens_cons proper.tokens, by simp, by simp, by simp, ?_⟩
      · intro same
        have lengths := congrArg List.length same
        have joinedLength := List.length_pos_iff.mpr joinedProper.nonempty
        rw [List.length_append, List.length_cons, rootName, List.length_singleton] at lengths
        omega
      · intro isOne
        rw [single (by omega)]

/-- Two components lead at most two steps below the root. -/
theorem RootedTree.descend_two (tree : RootedTree vfs children) (first second : List U8) :
    ∃ result, descend vfs vfs.root [first, second] = some result ∧
      (result = 0#64 ∨ Below vfs 2 result) := by
  obtain ⟨child, found, isChild⟩ := tree.search .root first
  rw [descend, found, Option.bind_eq_bind, Option.bind_some]
  split_ifs with missing
  · exact ⟨_, rfl, Or.inl rfl⟩
  · have childBelow := tree.child_below .root (isChild.resolve_left missing)
    obtain ⟨grandchild, found', isGrandchild⟩ := tree.search childBelow second
    rw [descend, found', Option.bind_eq_bind, Option.bind_some]
    split_ifs with missing'
    · exact ⟨_, rfl, Or.inl rfl⟩
    · exact ⟨_, rfl, Or.inr (tree.child_below childBelow (isGrandchild.resolve_left missing'))⟩

/-- The names on the way lead to a node. -/
theorem RootedTree.descend_child (tree : RootedTree vfs children) (named : Named vfs children)
    (below : Below vfs depth node) {other : U64} {otherNode : Vnode}
    (membership : other ∈ children node) (otherLive : vfs.vnodes other = some otherNode)
    (names : List (List U8)) :
    descend vfs node (otherNode.name.text :: names) = descend vfs other names := by
  have found := tree.search_child named below membership otherLive
  have nonnull := tree.nonnull (tree.child_below below membership)
  rw [descend, found, Option.bind_eq_bind, Option.bind_some, if_neg nonnull]

theorem Below.eq_root (below : Below vfs 0 node) : node = vfs.root := by
  cases below
  rfl

theorem Below.parent (below : Below vfs (depth + 1) node)
    (live : vfs.vnodes node = some vnode) : Below vfs depth vnode.parent := by
  cases below with
  | child live' _ above =>
      rw [live] at live'
      cases live'
      exact above

/-- Descending along the components of a node's path. -/
theorem RootedTree.descend_path (tree : RootedTree vfs children) (named : Named vfs children)
    (below : Below vfs (depth + 1) node) (live : vfs.vnodes node = some vnode)
    {joined : List (List U8)} (atMost : joined.length ≤ 1) (shallow : joined = [] → depth = 0)
    (first : depth = 0 → joined = [])
    (second : depth = 1 → joined = [nameOf vfs.vnodes vnode.parent]) :
    ∃ result, descend vfs vfs.root (joined ++ [vnode.name.text]) = some result ∧
      (result = node ↔ depth + 1 ≤ 2) := by
  have membership := tree.listed depth node vnode below live
  have above := below.parent live
  cases depth with
  | zero =>
      rw [above.eq_root] at membership
      rw [first rfl, List.nil_append, tree.descend_child named .root membership live]
      exact ⟨node, rfl, by simp⟩
  | succ depth =>
      obtain ⟨parentNode, parentLive⟩ := tree.live above
      have parentMembership := tree.listed depth _ parentNode above parentLive
      have higher := above.parent parentLive
      cases depth with
      | zero =>
          rw [higher.eq_root] at parentMembership
          rw [second rfl, nameOf_live parentLive, List.singleton_append,
            tree.descend_child named .root parentMembership parentLive,
            tree.descend_child named above membership live]
          exact ⟨node, rfl, by simp⟩
      | succ depth =>
          have one : ∃ name, joined = [name] := by
            apply List.length_eq_one_iff.mp
            have nonempty := List.length_pos_iff.mpr fun empty => absurd (shallow empty) (by simp)
            omega
          obtain ⟨name, rfl⟩ := one
          obtain ⟨result, found, shape⟩ := tree.descend_two name vnode.name.text
          refine ⟨result, found, ?_⟩
          constructor
          · rintro rfl
            rcases shape with isNull | twoBelow
            · exact (tree.nonnull below isNull).elim
            · have depths := twoBelow.unique below
              omega
          · intro atMostTwo
            omega

/-- A path leads back to its node exactly when the node is at most two steps
below the root. -/
theorem vfs_path_round_trip_iff {vfs : Vfs} {children : U64 → List U64}
    (tree : RootedTree vfs children) (named : Named vfs children) {depth : Nat} {node : U64}
    (below : Below vfs depth node) {first second : U64} {supply : List U64}
    (supplied : vfs.supply = first :: second :: supply) (firstNonnull : first ≠ 0#64)
    (secondNonnull : second ≠ 0#64)
    (room : ∀ path next, vfsGetPath vfs node = some (some path, next) →
      second.toNat + path.length < 2 ^ 64) (last : U64) :
    (∃ path next after, vfsGetPath vfs node = some (some path, next) ∧
      vfsLookup next last path = some (node, after)) ↔ depth ≤ 2 := by
  obtain ⟨vnode, live⟩ := tree.live below
  obtain ⟨path, made, shape⟩ := tree.getPath named below live supplied firstNonnull
  have fits := room path _ made
  have rootNonnull : vfs.root ≠ 0#64 := tree.nonnull .root
  have onlyPath : (∃ path next after, vfsGetPath vfs node = some (some path, next) ∧
      vfsLookup next last path = some (node, after)) ↔
      ∃ after, vfsLookup { vfs with supply := second :: supply } last path =
        some (node, after) := by
    constructor
    · rintro ⟨path', next, after, made', found⟩
      rw [made] at made'
      cases made'
      exact ⟨after, found⟩
    · rintro ⟨after, found⟩
      exact ⟨path, _, after, made, found⟩
  rw [onlyPath]
  cases depth with
  | zero =>
      obtain rfl := below.eq_root
      cases shape
      have looked := @vfsLookup_root { vfs with supply := second :: supply } rootNonnull last
      exact ⟨fun _ => Nat.zero_le _, fun _ => ⟨_, looked⟩⟩
  | succ depth =>
      have proper := named.proper depth node vnode below live
      obtain ⟨notRoot, joined, split, atMost, shallow, one, two⟩ := shape.tokens proper
      obtain ⟨result, found, same⟩ := tree.descend_path named below live atMost shallow one two
      have looked := @vfsLookup_eq { vfs with supply := second :: supply } _ _ second supply
        rootNonnull (shape.nonzero fun _ => proper) notRoot rfl secondNonnull fits split last
      rw [descend_supply] at looked
      rw [looked, ← same]
      have descended : descend { vfs with supply := second :: supply } vfs.root
          (joined ++ [vnode.name.text]) = some result :=
        (descend_supply (second :: supply)).trans found
      rw [descended]
      constructor
      · rintro ⟨after, equal⟩
        cases equal
        rfl
      · rintro rfl
        exact ⟨_, rfl⟩

/-- A directory in a directory in a directory below the root. -/
def chainVfs : Vfs where
  vnodes := fun node =>
    if node = 0x10#64 then
      some { rootVnode ⟨0x11#64, rootName⟩ with child := 0x20#64 }
    else if node = 0x20#64 then
      some { newVnode 0x10#64 ⟨0x21#64, [0x61#8]⟩ .directory rootPermissions with child := 0x30#64 }
    else if node = 0x30#64 then
      some { newVnode 0x20#64 ⟨0x31#64, [0x62#8]⟩ .directory rootPermissions with child := 0x40#64 }
    else if node = 0x40#64 then
      some (newVnode 0x30#64 ⟨0x41#64, [0x63#8]⟩ .directory rootPermissions)
    else
      none
  root := 0x10#64
  supply := [0x50#64, 0x60#64]

def chainChildren (node : U64) : List U64 :=
  if node = 0x10#64 then [0x20#64]
  else if node = 0x20#64 then [0x30#64]
  else if node = 0x30#64 then [0x40#64]
  else []

theorem chainVfs_live (live : chainVfs.vnodes node = some vnode) :
    node ∈ [0x10#64, 0x20#64, 0x30#64, 0x40#64] := by
  simp only [chainVfs] at live
  split_ifs at live <;> simp_all

theorem chainVfs_below : Below chainVfs 1 0x20#64 ∧ Below chainVfs 2 0x30#64 ∧
    Below chainVfs 3 0x40#64 := by
  have one : Below chainVfs 1 0x20#64 := .child rfl (by decide) .root
  have two : Below chainVfs 2 0x30#64 := .child rfl (by decide) one
  exact ⟨one, two, .child rfl (by decide) two⟩

theorem chainVfs_tree : LiveTree chainVfs chainChildren where
  root := ⟨_, rfl, rfl⟩
  null := rfl
  segment := by
    intro node vnode live
    have listed := chainVfs_live live
    simp only [List.mem_cons, List.not_mem_nil, or_false] at listed
    rcases listed with rfl | rfl | rfl | rfl <;>
      (cases live; simp [chainChildren, nextOf, chainVfs, newVnode])
  child := by
    intro node vnode other live membership
    have listed := chainVfs_live live
    simp only [List.mem_cons, List.not_mem_nil, or_false] at listed
    rcases listed with rfl | rfl | rfl | rfl <;>
      simp only [chainChildren] at membership <;> simp at membership <;>
      (subst membership; exact ⟨_, rfl, rfl⟩)
  listed := by
    intro node vnode live notRoot
    have listed := chainVfs_live live
    simp only [List.mem_cons, List.not_mem_nil, or_false] at listed
    rcases listed with rfl | rfl | rfl | rfl
    · exact (notRoot rfl).elim
    · cases live
      exact ⟨by decide, _, rfl⟩
    · cases live
      exact ⟨by decide, _, rfl⟩
    · cases live
      exact ⟨by decide, _, rfl⟩
  climbs := by
    intro node vnode live
    have listed := chainVfs_live live
    simp only [List.mem_cons, List.not_mem_nil, or_false] at listed
    rcases listed with rfl | rfl | rfl | rfl
    · exact ⟨0, .root⟩
    · exact ⟨1, chainVfs_below.1⟩
    · exact ⟨2, chainVfs_below.2.1⟩
    · exact ⟨3, chainVfs_below.2.2⟩

theorem chainVfs_named : Named chainVfs chainChildren where
  root := by
    intro vnode live
    cases live
    rfl
  proper := by
    intro depth node vnode below live
    have listed := chainVfs_live live
    simp only [List.mem_cons, List.not_mem_nil, or_false] at listed
    rcases listed with rfl | rfl | rfl | rfl
    · exact absurd (below.unique .root) (by simp)
    · cases live
      exact ⟨by decide, by decide, by decide⟩
    · cases live
      exact ⟨by decide, by decide, by decide⟩
    · cases live
      exact ⟨by decide, by decide, by decide⟩
  unique := by
    intro depth node first second firstNode secondNode _ firstIn secondIn _ _ _
    have atMostOne : (chainChildren node).length ≤ 1 := by
      unfold chainChildren
      split_ifs <;> decide
    match list : chainChildren node, atMostOne with
    | [], _ =>
        rw [list] at firstIn
        cases firstIn
    | [only], _ =>
        rw [list, List.mem_singleton] at firstIn secondIn
        rw [firstIn, secondIn]

theorem vfs_path_round_trip_iff_grandchild :
    ∃ path next after, vfsGetPath chainVfs 0x30#64 = some (some path, next) ∧
      vfsLookup next 0#64 path = some (0x30#64, after) := by
  have room : ∀ path next, vfsGetPath chainVfs 0x30#64 = some (some path, next) →
      (0x60#64).toNat + path.length < 2 ^ 64 := by
    intro path next made
    have path : vfsGetPath chainVfs 0x30#64 =
        some (some [0x61#8, 0x2F#8, 0x62#8], { chainVfs with supply := [0x60#64] }) := rfl
    rw [path] at made
    cases made
    decide
  exact (vfs_path_round_trip_iff chainVfs_tree.rooted chainVfs_named chainVfs_below.2.1 rfl
    (by decide) (by decide) room 0#64).mpr (by decide)

/-- The path of a node three steps down names another node, or none. -/
theorem vfs_path_loses_nodes : ¬∀ (vfs : Vfs) (children : U64 → List U64) (depth : Nat) (node : U64)
    (first second : U64) (supply : List U64) (last : U64), RootedTree vfs children →
    Named vfs children → Below vfs depth node → vfs.supply = first :: second :: supply →
    first ≠ 0#64 → second ≠ 0#64 →
    (∀ path next, vfsGetPath vfs node = some (some path, next) →
      second.toNat + path.length < 2 ^ 64) →
    ∃ path next after, vfsGetPath vfs node = some (some path, next) ∧
      vfsLookup next last path = some (node, after) := by
  intro always
  have path : vfsGetPath chainVfs 0x40#64 =
      some (some [0x62#8, 0x61#8, 0x2F#8, 0x63#8], { chainVfs with supply := [0x60#64] }) := rfl
  have room : ∀ found next, vfsGetPath chainVfs 0x40#64 = some (some found, next) →
      (0x60#64).toNat + found.length < 2 ^ 64 := by
    intro found next made
    rw [path] at made
    cases made
    decide
  obtain ⟨found, next, after, made, looked⟩ := always chainVfs chainChildren 3 0x40#64 0x50#64
    0x60#64 [] 0#64 chainVfs_tree.rooted chainVfs_named chainVfs_below.2.2 rfl (by decide)
    (by decide) room
  rw [path] at made
  cases made
  have missed : (vfsLookup { chainVfs with supply := [0x60#64] } 0#64
      [0x62#8, 0x61#8, 0x2F#8, 0x63#8]).map Prod.fst = some 0#64 := by
    decide +kernel
  rw [looked] at missed
  have isNull : (0x40#64 : U64) = 0#64 := Option.some.inj missed
  exact absurd isNull (by decide)

end Nekonix
