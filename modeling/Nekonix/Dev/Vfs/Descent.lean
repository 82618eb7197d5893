import Nekonix.Dev.Vfs.Paths
import Nekonix.Dev.Vfs.Sequences
import Nekonix.Lib.Path

/-!
# Lookup is descent

`vfs_lookup` against the tree alone: from the root, for each component of the path, to the
first child with that name.  The tokenizer only writes to its own copy of the path, and
what it remembers from earlier calls does not matter.
-/

namespace Nekonix

open LinkedList FlatMemory

/-- From `node`, for each name, to the first child that has it. -/
def followNames (vnodes : U64 → Option Vnode) (children : U64 → List U64) :
    (node : U64) → (names : List (List U8)) → Option U64
  | node, [] => some node
  | node, name :: names =>
      (firstNamed vnodes name (children node)).bind fun child =>
        followNames vnodes children child names

/-- The names of the vnodes below the root are C strings. -/
def ProperNames (vfs : Vfs) : Prop :=
  ∀ depth node vnode, Below vfs depth node → vfs.vnodes node = some vnode →
    ∀ c ∈ vnode.name.text, c ≠ 0#8

variable {vfs : Vfs} {children : U64 → List U64} {depth : Nat} {node path block last : U64}
  {memory : Memory} {text : List U8} {names : List (List U8)} {supply : List U64}

/-- The characters of a token are characters of the text. -/
theorem Tokens.subset {delim : List U8} {tokens : List (List U8)}
    (split : Tokens delim text tokens) : ∀ token ∈ tokens, token ⊆ text := by
  induction split with
  | done => simp
  | @token text gap token rest tokens first _ inductionHypothesis =>
      rw [List.forall_mem_cons, first.split]
      refine ⟨fun c here => by simp [here], ?_⟩
      intro later listed c here
      have inTail := inductionHypothesis later listed here
      simp [List.mem_of_mem_tail inTail]

namespace RootedTree

theorem liveChildren (tree : RootedTree vfs children) (below : Below vfs depth node) :
    LiveChildren vfs.vnodes node (children node) := by
  obtain ⟨vnode, live⟩ := tree.live below
  exact ⟨vnode, live, tree.siblings below live⟩

/-- A followed path ends below the root. -/
theorem follow_below (tree : RootedTree vfs children) (below : Below vfs depth node) {found : U64}
    (followed : followNames vfs.vnodes children node names = some found) :
    ∃ depth, Below vfs depth found := by
  induction names generalizing node depth with
  | nil =>
      cases followed
      exact ⟨depth, below⟩
  | cons name names inductionHypothesis =>
      obtain ⟨child, first, further⟩ := Option.bind_eq_some_iff.mp followed
      exact inductionHypothesis (tree.child_below below (List.mem_of_find?_eq_some first)) further

theorem follow_null_iff (tree : RootedTree vfs children) (below : Below vfs depth node) :
    (followNames vfs.vnodes children node names).getD 0#64 = 0#64 ↔
      followNames vfs.vnodes children node names = none := by
  cases followed : followNames vfs.vnodes children node names with
  | none => simp
  | some found =>
      obtain ⟨depth, foundBelow⟩ := tree.follow_below below followed
      simpa using tree.nonnull foundBelow

/-- The descent with `vfs_search_node` follows the names. -/
theorem descend_eq (tree : RootedTree vfs children) (proper : ProperNames vfs)
    (below : Below vfs depth node) (nonzero : ∀ name ∈ names, ∀ c ∈ name, c ≠ 0#8) :
    descend vfs node names = some ((followNames vfs.vnodes children node names).getD 0#64) := by
  induction names generalizing node depth with
  | nil => rfl
  | cons name names inductionHypothesis =>
      rw [List.forall_mem_cons] at nonzero
      have search := vfsSearchNode_first (tree.liveChildren below) (tree.nonnull below) nonzero.1
        fun child listed vnode live => proper _ child vnode (tree.child_below below listed) live
      rw [descend, search, followNames]
      cases first : firstNamed vfs.vnodes name (children node) with
      | none => rfl
      | some child =>
          have childBelow := tree.child_below below (List.mem_of_find?_eq_some first)
          simp only [Option.bind_eq_bind, Option.bind_some, Option.getD_some,
            if_neg (tree.nonnull childBelow)]
          exact inductionHypothesis childBelow nonzero.2

end RootedTree

/-- `vfs_lookup` follows the components of the path. -/
theorem vfsLookup_follows (tree : RootedTree vfs children) (proper : ProperNames vfs)
    (nonzero : ∀ c ∈ text, c ≠ 0#8) (supplied : vfs.supply = block :: supply)
    (nonnull : block ≠ 0#64) (room : block.toNat + text.length < 2 ^ 64) (last : U64) :
    ∃ next, VnodesKept vfs next ∧ vfsLookup vfs last text =
      some ((followNames vfs.vnodes children vfs.root (components text)).getD 0#64, next) := by
  have rootNonnull := tree.nonnull .root
  have split := tokens_components text
  by_cases isRoot : text = rootName
  · have none : components rootName = [] := by
      rw [rootName, components_slash, components_nil]
    refine ⟨vfs, ⟨rfl, rfl⟩, ?_⟩
    rw [isRoot, none, vfsLookup_root rootNonnull]
    rfl
  · have descended := tree.descend_eq proper .root fun name listed c here =>
      nonzero c (split.subset name listed here)
    refine ⟨{ vfs with supply }, ⟨rfl, rfl⟩, ?_⟩
    rw [vfsLookup_eq rootNonnull nonzero isRoot supplied nonnull room split, descend_supply,
      descended, Option.map_some]

/-- `vfs_lookup` follows the components of a path from the root to the first child with each
name, and is NULL exactly where one has no such child.  The vnodes, the path and all memory
but the copy stay as they are. -/
theorem vfs_lookup_follows (tree : RootedTree vfs children) (proper : ProperNames vfs)
    (string : StringAt memory path text) (pathNonnull : path ≠ 0#64)
    (supplied : vfs.supply = block :: supply) (nonnull : block ≠ 0#64)
    (room : block.toNat + text.length < 2 ^ 64)
    (apart : Separate block (text.length + 1) path (text.length + 1)) (last : U64) :
    ∃ next after last',
      vfsLookupIn vfs memory last path =
        some ((followNames vfs.vnodes children vfs.root (components text)).getD 0#64, next, after,
          last') ∧
      ((followNames vfs.vnodes children vfs.root (components text)).getD 0#64 = 0#64 ↔
        followNames vfs.vnodes children vfs.root (components text) = none) ∧
      VnodesKept vfs next ∧ StringAt after path text ∧
      ∀ address, ¬InRange block (text.length + 1) address → after address = memory address := by
  obtain ⟨⟨after, last'⟩, outside, looked⟩ := vfsLookupIn_eq (tree.nonnull .root) string pathNonnull
    supplied nonnull room (tokens_components text) last
  obtain ⟨next, kept, followed⟩ :=
    vfsLookup_follows tree proper string.nonzero supplied nonnull room last
  rw [followed, Option.map_some] at looked
  refine ⟨next, after, last', looked, tree.follow_null_iff .root, kept, string.congr ?_, outside⟩
  intro offset inside
  refine outside _ fun inCopy => apart _ inCopy ?_
  exact inRange_offset path (by omega) (Nat.lt_succ_of_le inside)

theorem chainVfs_properNames : ProperNames chainVfs := by
  intro depth node vnode _ live
  have listed := chainVfs_live live
  simp only [List.mem_cons, List.not_mem_nil, or_false] at listed
  rcases listed with rfl | rfl | rfl | rfl <;> cases live <;> decide

/-- `"//a/b/"` -/
def spacedPath : List U8 :=
  [charSlash, charSlash, charLowerA, charSlash, 0x62#8, charSlash]

theorem vfs_lookup_follows_spaced : ∃ next after last',
    vfsLookupIn chainVfs (strcpy (fun _ => 0#8) 0x9000#64 spacedPath) 0x1234#64 0x9000#64 =
      some (0x30#64, next, after, last') ∧ StringAt after 0x9000#64 spacedPath := by
  have string : StringAt (strcpy (fun _ => 0#8) 0x9000#64 spacedPath) 0x9000#64 spacedPath :=
    stringAt_strcpy (by decide) (by decide)
  have apart : Separate 0x50#64 7 0x9000#64 7 := by
    intro address inCopy inPath
    unfold InRange at inCopy inPath
    bv_omega
  have followed : followNames chainVfs.vnodes chainChildren 0x10#64 (components spacedPath) =
      some 0x30#64 := by decide
  obtain ⟨next, after, last', looked, -, -, unchanged, -⟩ := vfs_lookup_follows
    chainVfs_tree.rooted chainVfs_properNames string (by decide) rfl (by decide) (by decide) apart
    0x1234#64
  have isFound : followNames chainVfs.vnodes chainChildren chainVfs.root (components spacedPath) =
      some 0x30#64 := followed
  rw [isFound] at looked
  exact ⟨next, after, last', looked, unchanged⟩

end Nekonix
