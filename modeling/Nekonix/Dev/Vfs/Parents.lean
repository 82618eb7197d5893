import Nekonix.Dev.Vfs.Effects
import Nekonix.Dev.Vfs.Descent

/-!
# The parent of a path

`vfs_lookup_parent` cuts the path at its last slash and looks up what is in front.  That
is the parent if a name follows the slash; otherwise what is left still names the node.
-/

namespace Nekonix

open LinkedList FlatMemory

/-- The memory after the path at `pathCopy` is ended at its last slash. -/
def cutLastSlash (memory : Memory) (pathCopy : U64) : Memory :=
  let lastSlash := strrchr memory pathCopy charSlash
  let (lastSlash, memory) :=
    if lastSlash = pathCopy then
      let memory := Function.update memory lastSlash 0#8
      (strrchr memory pathCopy charSlash, memory)
    else
      (lastSlash, memory)
  if lastSlash ≠ 0#64 then Function.update memory lastSlash 0#8 else memory

/-- `vfs_lookup_parent`: the node, and the state after the call. -/
def vfsLookupParent (vfs : Vfs) (memory : Memory) (last path : U64) :
    Option (U64 × Vfs × AfterTokens) :=
  if path = 0#64 ∨ strcmp (cString memory path) [charSlash] = 0 then
    some (0#64, vfs, memory, last)
  else
    let (pathCopy, vfs, memory) := strdup vfs memory path
    if pathCopy = 0#64 then
      some (0#64, vfs, memory, last)
    else
      vfsLookupIn vfs (cutLastSlash memory pathCopy) last pathCopy

variable {vfs : Vfs} {children : U64 → List U64} {depth : Nat} {node path block last : U64}
  {memory : Memory} {text front name : List U8} {names : List (List U8)} {vnode : Vnode}

/-! What is looked up -/

/-- The blocks to come do not matter to the tree. -/
theorem Below.with_supply (below : Below vfs depth node) (supply : List U64) :
    Below { vfs with supply } depth node := by
  induction below with
  | root => exact .root
  | child live notRoot _ inductionHypothesis => exact .child live notRoot inductionHypothesis

theorem RootedTree.with_supply (tree : RootedTree vfs children) (supply : List U64) :
    RootedTree { vfs with supply } children where
  root := tree.root
  null := tree.null
  segment := fun depth node vnode below =>
    tree.segment depth node vnode (below.with_supply vfs.supply)
  child := fun depth node other below => tree.child depth node other (below.with_supply vfs.supply)
  listed := fun depth node vnode below =>
    tree.listed depth node vnode (below.with_supply vfs.supply)

theorem ProperNames.with_supply (proper : ProperNames vfs) (supply : List U64) :
    ProperNames { vfs with supply } :=
  fun depth node vnode below => proper depth node vnode (below.with_supply vfs.supply)

/-- What `vfs_lookup` returns, whether `kmalloc` succeeds or not; `/` needs no block. -/
theorem vfsLookupIn_node (tree : RootedTree vfs children) (proper : ProperNames vfs)
    (string : StringAt memory path text) (pathNonnull : path ≠ 0#64)
    (room : ∀ block ∈ vfs.supply.head?, block.toNat + text.length < 2 ^ 64)
    (last : U64) :
    (vfsLookupIn vfs memory last path).map Prod.fst =
      some (if text = rootName ∨ vfs.supply.head?.getD 0#64 ≠ 0#64 then
        (followNames vfs.vnodes children vfs.root (components text)).getD 0#64 else 0#64) := by
  have rootNonnull := tree.nonnull .root
  have isText : cString memory path = text := string.readString_eq string.short
  by_cases isRoot : text = rootName
  · have same : strcmp rootName [charSlash] = 0 := by decide
    have none : components rootName = [] := by
      rw [rootName, components_slash, components_nil]
    subst isRoot
    simp [vfsLookupIn, vfsTraversePathIn, rootNonnull, pathNonnull, isText, same, none, followNames]
  · by_cases supplied : vfs.supply.head?.getD 0#64 = 0#64
    · have different : strcmp text [charSlash] ≠ 0 := by
        rw [ne_eq, strcmp_eq_zero_iff string.nonzero (by decide)]
        exact isRoot
      simp [vfsLookupIn, vfsTraversePathIn, rootNonnull, pathNonnull, isText, different, strdup,
        kmalloc_fst, isRoot, supplied]
    · have isSupply := supply_of_nonnull supplied
      have isHead : vfs.supply.head?.getD 0#64 ∈ vfs.supply.head? := by
        rw [isSupply]
        simp
      obtain ⟨after, -, looked⟩ := vfsLookupIn_eq rootNonnull string pathNonnull isSupply supplied
        (room _ isHead) (tokens_components text) last
      obtain ⟨next, -, followed⟩ := vfsLookup_follows tree proper string.nonzero isSupply supplied
        (room _ isHead) last
      rw [looked, followed, if_pos (.inr supplied)]
      rfl

/-! What is cut off -/

theorem cutLastSlash_absent (string : StringAt memory block text) (nonnull : block ≠ 0#64)
    (absent : charSlash ∉ text) : StringAt (cutLastSlash memory block) block text := by
  have noSlash : strrchr memory block charSlash = 0#64 := strrchr_absent string absent
  simpa [cutLastSlash, noSlash, nonnull.symm] using string

theorem cutLastSlash_present (string : StringAt memory block (front ++ charSlash :: name))
    (absent : charSlash ∉ name)
    (room : block.toNat + front.length < 2 ^ 64) :
    StringAt (cutLastSlash memory block) block front := by
  have lastSlash := strrchr_present string absent (by omega : front.length < 2 ^ 64)
  cases front with
  | nil =>
      -- the slash in front is cut off first, and no other is left
      have ended : StringAt (Function.update memory block 0#8) block [] := Function.update_self ..
      have noSlash := strrchr_absent ended (List.not_mem_nil (a := charSlash))
      simp only [List.length_nil, BitVec.add_zero] at lastSlash
      simpa [cutLastSlash, lastSlash, noSlash] using ended
  | cons c front =>
      have further : block + BitVec.ofNat 64 (c :: front).length ≠ block := by
        rw [List.length_cons] at room ⊢
        bv_omega
      have slashNonnull : block + BitVec.ofNat 64 (c :: front).length ≠ 0#64 := by
        rw [List.length_cons] at room ⊢
        bv_omega
      simp only [cutLastSlash, lastSlash, if_neg further, ne_eq, slashNonnull, not_false_eq_true,
        if_true]
      exact string.cut room

/-- What `vfs_lookup_parent` returns for a path that it cuts to a shorter one. -/
theorem vfsLookupParent_node {shorter : List U8} {supply : List U64}
    (tree : RootedTree vfs children) (proper : ProperNames vfs)
    (string : StringAt memory path text) (pathNonnull : path ≠ 0#64) (notRoot : text ≠ rootName)
    (supplied : vfs.supply = block :: supply) (nonnull : block ≠ 0#64)
    (room : ∀ block ∈ vfs.supply, block.toNat + text.length < 2 ^ 64)
    (cut : ∀ memory, StringAt memory block text →
      StringAt (cutLastSlash memory block) block shorter)
    (notLonger : shorter.length ≤ text.length) (last : U64) :
    (vfsLookupParent vfs memory last path).map Prod.fst =
      some (if shorter = rootName ∨ supply.head?.getD 0#64 ≠ 0#64 then
        (followNames vfs.vnodes children vfs.root (components shorter)).getD 0#64 else 0#64) := by
  have isText : cString memory path = text := string.readString_eq string.short
  have different : strcmp text [charSlash] ≠ 0 := by
    rw [ne_eq, strcmp_eq_zero_iff string.nonzero (by decide)]
    exact notRoot
  have copied : StringAt (strcpy memory block text) block text :=
    stringAt_strcpy string.nonzero (room block (by simp [supplied]))
  have later : ∀ next ∈ supply.head?, next.toNat + shorter.length < 2 ^ 64 := by
    intro next isHead
    have bound := room next (by simp [supplied, List.mem_of_mem_head? isHead])
    omega
  have looked := vfsLookupIn_node (tree.with_supply supply) (proper.with_supply supply)
    (cut _ copied) nonnull later last
  simp only [vfsLookupParent, pathNonnull, isText, different, or_self, if_false, strdup,
    Vfs.kmalloc, supplied, nonnull]
  exact looked

/-! The parent in the tree -/

theorem followNames_append (vnodes : U64 → Option Vnode) (children : U64 → List U64) (node : U64)
    (names further : List (List U8)) :
    followNames vnodes children node (names ++ further) =
      (followNames vnodes children node names).bind fun middle =>
        followNames vnodes children middle further := by
  induction names generalizing node with
  | nil => rfl
  | cons name names inductionHypothesis =>
      rw [List.cons_append, followNames, followNames]
      cases firstNamed vnodes name (children node) with
      | none => rfl
      | some child => exact inductionHypothesis child

/-- Without the last name a path leads to the parent. -/
theorem RootedTree.follow_parent (tree : RootedTree vfs children)
    (followed : followNames vfs.vnodes children vfs.root (names ++ [name]) = some node)
    (live : vfs.vnodes node = some vnode) :
    followNames vfs.vnodes children vfs.root names = some vnode.parent := by
  rw [followNames_append] at followed
  obtain ⟨middle, before, further⟩ := Option.bind_eq_some_iff.mp followed
  obtain ⟨child, first, isNode⟩ := Option.bind_eq_some_iff.mp further
  obtain rfl : child = node := Option.some.inj isNode
  obtain ⟨depth, below⟩ := tree.follow_below .root before
  obtain ⟨found, foundLive, parent⟩ :=
    tree.child depth middle child below (List.mem_of_find?_eq_some first)
  rw [live] at foundLive
  cases foundLive
  rw [parent, before]

/-- A node below the root is neither its own parent nor a child of NULL. -/
theorem RootedTree.parent_ne (tree : RootedTree vfs children) (below : Below vfs depth node)
    (notRoot : node ≠ vfs.root) (live : vfs.vnodes node = some vnode) :
    vnode.parent ≠ node ∧ vnode.parent ≠ 0#64 := by
  cases below with
  | root => exact absurd rfl notRoot
  | child live' _ above =>
      rw [live] at live'
      cases live'
      refine ⟨?_, tree.nonnull above⟩
      intro own
      have again := Below.child live notRoot above
      rw [own] at above
      exact absurd (above.unique again) (by omega)

/-- The last slash of a text. -/
theorem exists_lastSlash (slash : charSlash ∈ text) :
    ∃ front name, text = front ++ charSlash :: name ∧ charSlash ∉ name := by
  obtain ⟨before, after, split, first⟩ := List.eq_append_cons_of_mem (List.mem_reverse.mpr slash)
  refine ⟨after.reverse, before.reverse, ?_, by simpa using first⟩
  rw [← List.reverse_reverse text, split]
  simp

/-- What follows the last slash, read backwards. -/
theorem takeWhile_reverse (front : List U8) (absent : charSlash ∉ name) :
    (front ++ charSlash :: name).reverse.takeWhile (· ≠ charSlash) = name.reverse := by
  rw [List.reverse_append, List.reverse_cons, List.append_assoc]
  refine takeWhile_append_stop ?_ ?_
  · intro c here
    have inName := List.mem_reverse.mp here
    simp only [ne_eq, decide_eq_true_eq]
    rintro rfl
    exact absent inName
  · simp

theorem lastSlash_unique {front' name' : List U8}
    (same : front ++ charSlash :: name = front' ++ charSlash :: name')
    (absent : charSlash ∉ name) (absent' : charSlash ∉ name') : front = front' ∧ name = name' := by
  have backwards := takeWhile_reverse front absent
  rw [same, takeWhile_reverse front' absent'] at backwards
  obtain rfl := List.reverse_injective backwards
  exact ⟨List.append_cancel_right same, rfl⟩

/-- A path that names a node below the root is not `/`, and could be copied. -/
theorem RootedTree.followed_of_looked (tree : RootedTree vfs children) (proper : ProperNames vfs)
    (string : StringAt memory path text)
    (room : ∀ block ∈ vfs.supply, block.toNat + text.length < 2 ^ 64)
    (looked : (vfsLookupIn vfs memory last path).map Prod.fst = some node)
    (found : node ≠ 0#64) (notRoot : node ≠ vfs.root) :
    path ≠ 0#64 ∧ text ≠ rootName ∧ vfs.supply.head?.getD 0#64 ≠ 0#64 ∧
      followNames vfs.vnodes children vfs.root (components text) = some node := by
  have pathNonnull : path ≠ 0#64 := by
    rintro rfl
    simp only [vfsLookupIn, vfsTraversePathIn, or_true, if_true, Option.map_some,
      Option.some_inj] at looked
    exact found looked.symm
  have isNode := vfsLookupIn_node tree proper string pathNonnull
    (fun block isHead => room block (List.mem_of_mem_head? isHead)) last
  rw [looked, Option.some_inj] at isNode
  split_ifs at isNode with copied
  · have followed : followNames vfs.vnodes children vfs.root (components text) = some node := by
      cases follows : followNames vfs.vnodes children vfs.root (components text) with
      | none =>
          rw [follows] at isNode
          exact absurd isNode found
      | some other =>
          rw [follows] at isNode
          rw [isNode, Option.getD_some]
    have notSlash : text ≠ rootName := by
      rintro rfl
      have none : components rootName = [] := by
        rw [rootName, components_slash, components_nil]
      rw [none] at followed
      exact notRoot (Option.some.inj followed).symm
    exact ⟨pathNonnull, notSlash, copied.resolve_left notSlash, followed⟩
  · exact absurd isNode found

/-- `vfs_lookup_parent` returns the parent of the node that the path names exactly if a name
follows the last slash and the part in front of it can be copied or is the root. -/
theorem vfs_lookup_parent_iff (tree : RootedTree vfs children) (proper : ProperNames vfs)
    (string : StringAt memory path text)
    (room : ∀ block ∈ vfs.supply, block.toNat + text.length < 2 ^ 64)
    (looked : (vfsLookupIn vfs memory last path).map Prod.fst = some node)
    (found : node ≠ 0#64) (notRoot : node ≠ vfs.root) (live : vfs.vnodes node = some vnode) :
    (vfsLookupParent vfs memory last path).map Prod.fst = some vnode.parent ↔
      ∃ front name, text = front ++ charSlash :: name ∧ name ≠ [] ∧ charSlash ∉ name ∧
        (front = rootName ∨ vfs.supply.tail.head?.getD 0#64 ≠ 0#64) := by
  obtain ⟨pathNonnull, notSlash, copied, followed⟩ :=
    tree.followed_of_looked proper string room looked found notRoot
  have supplied := supply_of_nonnull copied
  have roomCopy := room _ (supplied ▸ List.mem_cons_self)
  obtain ⟨depth, below⟩ := tree.follow_below .root followed
  obtain ⟨parentOther, parentNonnull⟩ := tree.parent_ne below notRoot live
  by_cases slash : charSlash ∈ text
  · obtain ⟨front, name, rfl, absent⟩ := exists_lastSlash slash
    rw [List.length_append] at roomCopy
    rw [vfsLookupParent_node tree proper string pathNonnull notSlash supplied copied room
      (fun memory string => cutLastSlash_present string absent (by omega)) (by simp) last,
      Option.some_inj]
    by_cases ended : name = []
    · -- the last slash separates nothing, so the node itself is found again
      subst ended
      rw [components_append, components_nil, List.append_nil] at followed
      constructor
      · intro isParent
        split_ifs at isParent
        · rw [followed] at isParent
          exact absurd isParent.symm parentOther
        · exact absurd isParent.symm parentNonnull
      · rintro ⟨front', name', split, nonempty, absent', -⟩
        exact absurd (lastSlash_unique split absent absent').2.symm nonempty
    · rw [components_append, components_name ended absent] at followed
      rw [tree.follow_parent followed live, Option.getD_some]
      constructor
      · intro isParent
        refine ⟨front, name, rfl, ended, absent, ?_⟩
        by_contra neither
        rw [if_neg neither] at isParent
        exact parentNonnull isParent.symm
      · rintro ⟨front', name', split, -, absent', either⟩
        rw [(lastSlash_unique split absent absent').1, if_pos either]
  · -- nothing is cut off, so the node itself is found again
    rw [vfsLookupParent_node tree proper string pathNonnull notSlash supplied copied room
      (fun memory string => cutLastSlash_absent string copied slash) (Nat.le_refl _) last,
      Option.some_inj, followed, Option.getD_some]
    constructor
    · intro isParent
      split_ifs at isParent
      · exact absurd isParent.symm parentOther
      · exact absurd isParent.symm parentNonnull
    · rintro ⟨front, name, rfl, -⟩
      exact absurd (by simp) slash

/-- A memory with a path at `0x9000`. -/
def pathMemory (text : List U8) : Memory := strcpy (fun _ => 0#8) 0x9000#64 text

theorem chainVfs_room (short : text.length < 2 ^ 32) :
    ∀ block ∈ chainVfs.supply, block.toNat + text.length < 2 ^ 64 := by
  intro block listed
  simp only [chainVfs, List.mem_cons, List.not_mem_nil, or_false] at listed
  rcases listed with rfl | rfl
  · change 0x50 + text.length < 2 ^ 64
    omega
  · change 0x60 + text.length < 2 ^ 64
    omega

/-- The node that a path in memory names in the chain of directories. -/
theorem chainVfs_looked (proper : ∀ c ∈ text, c ≠ 0#8) (short : text.length < 2 ^ 32)
    (last : U64) :
    StringAt (pathMemory text) 0x9000#64 text ∧
      (vfsLookupIn chainVfs (pathMemory text) last 0x9000#64).map Prod.fst =
        some ((followNames chainVfs.vnodes chainChildren 0x10#64 (components text)).getD 0#64) := by
  have start : (0x9000#64 : U64).toNat = 0x9000 := rfl
  have string : StringAt (pathMemory text) 0x9000#64 text :=
    stringAt_strcpy proper (by rw [start]; omega)
  refine ⟨string, ?_⟩
  rw [vfsLookupIn_node chainVfs_tree.rooted chainVfs_properNames string (by decide)
    (fun block isHead => chainVfs_room short block (List.mem_of_mem_head? isHead)) last,
    if_pos (.inr (by decide))]
  rfl

/-- `"/a/b"` -/
def absolutePath : List U8 := [charSlash, charLowerA, charSlash, 0x62#8]

theorem vfs_lookup_parent_iff_absolute :
    (vfsLookupParent chainVfs (pathMemory absolutePath) 0#64 0x9000#64).map Prod.fst =
      some 0x20#64 := by
  obtain ⟨string, looked⟩ := @chainVfs_looked absolutePath (by decide) (by decide) 0#64
  have isNode : followNames chainVfs.vnodes chainChildren 0x10#64 (components absolutePath) =
      some 0x30#64 := by decide
  rw [isNode, Option.getD_some] at looked
  exact (vfs_lookup_parent_iff chainVfs_tree.rooted chainVfs_properNames string
    (chainVfs_room (by decide)) looked (by decide) (by decide) rfl).mpr
    ⟨[charSlash, charLowerA], [0x62#8], rfl, by decide, by decide, .inr (by decide)⟩

/-- The parent of `"a"` is the node itself. -/
theorem vfs_lookup_parent_keeps_name : ¬∀ (vfs : Vfs) (children : U64 → List U64) (memory : Memory)
    (last path node : U64) (text : List U8) (vnode : Vnode), RootedTree vfs children →
    Named vfs children → ProperNames vfs → StringAt memory path text →
    (∀ block ∈ vfs.supply, block ≠ 0#64 ∧ block.toNat + text.length < 2 ^ 64) →
    vfs.supply.length ≥ 2 →
    (vfsLookupIn vfs memory last path).map Prod.fst = some node →
    node ≠ 0#64 → node ≠ vfs.root → vfs.vnodes node = some vnode →
    (vfsLookupParent vfs memory last path).map Prod.fst = some vnode.parent := by
  intro always
  obtain ⟨string, looked⟩ := @chainVfs_looked [charLowerA] (by decide) (by decide) 0#64
  have isNode : followNames chainVfs.vnodes chainChildren 0x10#64 (components [charLowerA]) =
      some 0x20#64 := by decide
  rw [isNode, Option.getD_some] at looked
  have room := @chainVfs_room [charLowerA] (by decide)
  have nonnull : ∀ block ∈ chainVfs.supply, block ≠ 0#64 := by simp [chainVfs]
  have parent := always chainVfs chainChildren _ 0#64 0x9000#64 0x20#64 [charLowerA] _
    chainVfs_tree.rooted chainVfs_named chainVfs_properNames string
    (fun block listed => ⟨nonnull block listed, room block listed⟩) (by decide) looked
    (by decide) (by decide) rfl
  rw [vfsLookupParent_node chainVfs_tree.rooted chainVfs_properNames string (by decide)
    (by decide) rfl (by decide) room
    (fun memory copied => cutLastSlash_absent copied (by decide) (by decide)) (Nat.le_refl _)]
    at parent
  have notParent : some ((followNames chainVfs.vnodes chainChildren 0x10#64
      (components [charLowerA])).getD 0#64) ≠ some 0x10#64 := by
    rw [isNode]
    decide
  exact notParent parent

end Nekonix
