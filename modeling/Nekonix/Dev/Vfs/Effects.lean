import Nekonix.Dev.Vfs

/-!
# What the operations of `dev/vfs.c` do to any heap

Each operation that returns has stored at most a few vnodes and freed at most one.
These are the cases of each, for a heap of any shape.
-/

namespace Nekonix

variable {vfs next : Vfs} {parent node made : U64} {name : Option (List U8)} {type : VnodeType}
  {perms error : U32} {krealloc : Krealloc} {memory memory' : Memory}

/-! The heap after a store and after a release -/

namespace Vfs

@[simp]
theorem store_same (vfs : Vfs) (node : U64) (vnode : Vnode) :
    (vfs.store node vnode).vnodes node = some vnode := Function.update_self ..

theorem store_other {vnode : Vnode} {other : U64} (different : other ≠ node) :
    (vfs.store node vnode).vnodes other = vfs.vnodes other := Function.update_of_ne different ..

@[simp]
theorem kfree_same (vfs : Vfs) (node : U64) : (vfs.kfree node).vnodes node = none :=
  Function.update_self ..

theorem kfree_other {other : U64} (different : other ≠ node) :
    (vfs.kfree node).vnodes other = vfs.vnodes other := Function.update_of_ne different ..

theorem store_live {vnode found : Vnode} {other : U64}
    (live : (vfs.store node vnode).vnodes other = some found) :
    other = node ∧ found = vnode ∨ other ≠ node ∧ vfs.vnodes other = some found := by
  by_cases here : other = node
  · rw [here, store_same] at live
    exact Or.inl ⟨here, (Option.some.inj live).symm⟩
  · rw [store_other here] at live
    exact Or.inr ⟨here, live⟩

theorem kfree_live {found : Vnode} {other : U64}
    (live : (vfs.kfree node).vnodes other = some found) :
    other ≠ node ∧ vfs.vnodes other = some found := by
  by_cases here : other = node
  · rw [here, kfree_same] at live
    cases live
  · rw [kfree_other here] at live
    exact ⟨here, live⟩

end Vfs

/-- `changed` is `found` with one of its links led to `target`. -/
def Vnode.Relinked (found changed : Vnode) (target : U64) : Prop :=
  changed = { found with child := target } ∨ changed = { found with next := target }

/-! `vfs_create` -/

/-- A created node: it is filled in, then one link is led to it. -/
structure VfsCreated (vfs : Vfs) (parent : U64) (name : Option (List U8)) (type : VnodeType)
    (perms : U32) (made : U64) (next : Vfs) : Prop where
  named : name ≠ none
  parentNonnull : parent ≠ 0#64
  nonnull : made ≠ 0#64
  linked : ∃ name supply holder found changed, vfs.supply = made :: name.block :: supply ∧
    name.block ≠ 0#64 ∧
    (vfs.store made (newVnode parent name type perms)).vnodes holder = some found ∧
    found.Relinked changed made ∧
    next.vnodes = ((vfs.store made (newVnode parent name type perms)).store holder changed).vnodes ∧
    next.root = vfs.root ∧ next.supply = supply

/-- A creation that failed for want of a block for the name. -/
structure VfsUnnamed (vfs : Vfs) (parent : U64) (name : Option (List U8)) (made : U64)
    (next : Vfs) : Prop where
  named : name ≠ none
  parentNonnull : parent ≠ 0#64
  nonnull : made ≠ 0#64
  supply : ∃ supply, vfs.supply = made :: supply ∧ supply.head?.getD 0#64 = 0#64 ∧
    next.supply = supply.tail
  vnodes : next.vnodes = (vfs.kfree made).vnodes
  root : next.root = vfs.root

/-- A creation that failed before it had a block. -/
structure VfsRefused (vfs : Vfs) (parent : U64) (name : Option (List U8)) (next : Vfs) : Prop where
  reason : name = none ∨ parent = 0#64 ∨ vfs.supply.head?.getD 0#64 = 0#64
  vnodes : next.vnodes = vfs.vnodes
  root : next.root = vfs.root

theorem kmalloc_fst (vfs : Vfs) : vfs.kmalloc.1 = vfs.supply.head?.getD 0#64 := by
  unfold Vfs.kmalloc
  cases vfs.supply <;> rfl

theorem kmalloc_snd (vfs : Vfs) : vfs.kmalloc.2 = { vfs with supply := vfs.supply.tail } := by
  obtain ⟨vnodes, root, supply⟩ := vfs
  cases supply <;> rfl

theorem supply_of_nonnull {supply : List U64} (nonnull : supply.head?.getD 0#64 ≠ 0#64) :
    supply = supply.head?.getD 0#64 :: supply.tail := by
  cases supply with
  | nil => exact absurd rfl nonnull
  | cons block supply => rfl

theorem vfsCreate_cases
    (result : vfsCreate vfs parent name type perms = some (error, made, next)) :
    (error = 0#32 ∧ VfsCreated vfs parent name type perms made next) ∨
      (error = 1#32 ∧
        (VfsRefused vfs parent name next ∨ ∃ block, VfsUnnamed vfs parent name block next)) := by
  unfold vfsCreate at result
  cases name with
  | none =>
      cases result
      exact Or.inr ⟨rfl, Or.inl ⟨Or.inl rfl, rfl, rfl⟩⟩
  | some name =>
      simp only [kmalloc_fst, kmalloc_snd, Option.bind_eq_bind] at result
      split_ifs at result with parentNull blockNull copyNull
      · cases result
        exact Or.inr ⟨rfl, Or.inl ⟨Or.inr (Or.inl parentNull), rfl, rfl⟩⟩
      · cases result
        exact Or.inr ⟨rfl, Or.inl ⟨Or.inr (Or.inr blockNull), rfl, rfl⟩⟩
      · cases result
        exact Or.inr ⟨rfl, Or.inr ⟨_, Option.some_ne_none _, parentNull, blockNull,
          ⟨_, supply_of_nonnull blockNull, copyNull, rfl⟩, rfl, rfl⟩⟩
      · rw [Option.bind_eq_some_iff] at result
        obtain ⟨parentNode, parentFound, result⟩ := result
        have supplied : vfs.supply = vfs.supply.head?.getD 0#64 ::
            vfs.supply.tail.head?.getD 0#64 :: vfs.supply.tail.tail := by
          rw [← supply_of_nonnull copyNull]
          exact supply_of_nonnull blockNull
        split_ifs at result with first
        · cases result
          exact Or.inl ⟨rfl, Option.some_ne_none _, parentNull, blockNull, ⟨⟨_, name⟩, _, parent,
            parentNode, _, supplied, copyNull, parentFound, Or.inl rfl, rfl, rfl, rfl⟩⟩
        · rw [Option.bind_eq_some_iff] at result
          obtain ⟨current, -, result⟩ := result
          rw [Option.bind_eq_some_iff] at result
          obtain ⟨last, lastFound, result⟩ := result
          cases result
          exact Or.inl ⟨rfl, Option.some_ne_none _, parentNull, blockNull, ⟨⟨_, name⟩, _, current,
            last, _, supplied, copyNull, lastFound, Or.inr rfl, rfl, rfl, rfl⟩⟩

/-! `vfs_remove` -/

/-- `node` is met on the way along siblings from `start`. -/
inductive Listed (vnodes : U64 → Option Vnode) (node : U64) : (start : U64) → Prop where
  | here : node ≠ 0#64 → Listed vnodes node node
  | behind {start vnode} : start ≠ 0#64 → vnodes start = some vnode →
      Listed vnodes node vnode.next → Listed vnodes node start

theorem siblingBefore_listed {vnodes : U64 → Option Vnode} {fuel : Nat} {prev start before : U64}
    (found : siblingBefore vnodes node fuel prev start = some (some before)) :
    Listed vnodes node start := by
  induction fuel generalizing prev start with
  | zero => cases found
  | succ fuel inductionHypothesis =>
      unfold siblingBefore at found
      split_ifs at found with ends here
      · cases found
      · subst here
        exact .here ends
      · rw [Option.bind_eq_bind, Option.bind_eq_some_iff] at found
        obtain ⟨vnode, live, further⟩ := found
        exact .behind ends live (inductionHypothesis further)

/-- A search that returns finds what is there. -/
theorem Listed.found {vnodes : U64 → Option Vnode} {start : U64} (listed : Listed vnodes node start)
    (fuel : Nat) (prev : U64) : siblingBefore vnodes node fuel prev start ≠ some none := by
  induction listed generalizing fuel prev with
  | here nonnull =>
      cases fuel with
      | zero => simp [siblingBefore]
      | succ fuel => simp [siblingBefore, nonnull]
  | @behind start vnode nonnull live _ inductionHypothesis =>
      cases fuel with
      | zero => simp [siblingBefore]
      | succ fuel =>
          unfold siblingBefore
          rw [if_neg nonnull]
          split_ifs with here
          · simp
          · rw [live]
            exact inductionHypothesis fuel start

/-- `node` is a child of `parent`, as the pointers list them. -/
def Vfs.IsChild (vfs : Vfs) (parent node : U64) : Prop :=
  ∃ vnode, vfs.vnodes parent = some vnode ∧ Listed vfs.vnodes node vnode.child

/-- A removed node: one link is led past it, and it is freed. -/
structure VfsRemoved (vfs : Vfs) (node : U64) (next : Vfs) : Prop where
  unlinked : ∃ removed holder found changed, vfs.vnodes node = some removed ∧
    vfs.vnodes holder = some found ∧ found.Relinked changed removed.next ∧
    next = (vfs.store holder changed).kfree node

theorem vfsRemove_cases (result : vfsRemove vfs parent node = some (error, next)) :
    (error = 0#32 ∧ vfs.IsChild parent node ∧ VfsRemoved vfs node next) ∨
      (error = 1#32 ∧ (vfs.vnodes node ≠ none → vfs.vnodes 0#64 = none → ¬vfs.IsChild parent node) ∧
        next = vfs) := by
  unfold vfsRemove at result
  split_ifs at result with null
  · cases result
    refine Or.inr ⟨rfl, ?_, rfl⟩
    intro live nullDead child
    obtain ⟨parentNode, parentLive, -⟩ := child
    rcases null with isNull | isNull
    · rw [isNull, nullDead] at parentLive
      cases parentLive
    · rw [isNull] at live
      exact live nullDead
  · simp only [Option.bind_eq_bind] at result
    rw [Option.bind_eq_some_iff] at result
    obtain ⟨parentNode, parentLive, result⟩ := result
    rw [Option.bind_eq_some_iff] at result
    obtain ⟨search, searched, result⟩ := result
    cases search with
    | none =>
        cases result
        refine Or.inr ⟨rfl, ?_, rfl⟩
        rintro - - ⟨found, foundLive, listed⟩
        rw [parentLive] at foundLive
        cases foundLive
        exact listed.found _ _ searched
    | some prev =>
        have child : vfs.IsChild parent node := ⟨parentNode, parentLive, siblingBefore_listed searched⟩
        dsimp only at result
        rw [Option.bind_eq_some_iff] at result
        obtain ⟨removed, removedLive, result⟩ := result
        split_ifs at result with behind
        · rw [Option.bind_eq_some_iff] at result
          obtain ⟨prevNode, prevLive, result⟩ := result
          cases result
          exact Or.inl ⟨rfl, child, ⟨removed, prev, prevNode, _, removedLive, prevLive, Or.inr rfl, rfl⟩⟩
        · cases result
          exact Or.inl ⟨rfl, child,
            ⟨removed, parent, parentNode, _, removedLive, parentLive, Or.inl rfl, rfl⟩⟩

/-! `vfs_chmod`, `vfs_write` -/

theorem vfsChmod_cases {permissions : U32}
    (result : vfsChmod vfs node permissions = some (error, next)) :
    next = vfs ∨ ∃ vnode, vfs.vnodes node = some vnode ∧
      next = vfs.store node { vnode with permissions } := by
  unfold vfsChmod at result
  split_ifs at result with null
  · cases result
    exact Or.inl rfl
  · rw [Option.bind_eq_bind, Option.bind_eq_some_iff] at result
    obtain ⟨vnode, live, result⟩ := result
    cases result
    exact Or.inr ⟨vnode, live, rfl⟩

/-- A write past the end of the file. -/
structure VfsGrown (krealloc : Krealloc) (vfs : Vfs) (memory : Memory) (node : U64) (newSize : U64)
    (next : Vfs) : Prop where
  stored : ∃ vnode, vfs.vnodes node = some vnode ∧ vnode.size < newSize ∧
    (krealloc memory vnode.data newSize).1 ≠ 0#64 ∧
    next = vfs.store node
      { vnode with data := (krealloc memory vnode.data newSize).1, size := newSize }

theorem vfsWrite_cases {offset size : U32} {buffer : U64} {returned : U32}
    (result : vfsWrite krealloc vfs memory node offset size buffer =
      some (returned, next, memory')) :
    next = vfs ∨ VfsGrown krealloc vfs memory node ((offset + size).setWidth 64) next := by
  unfold vfsWrite at result
  split_ifs at result with null
  · cases result
    exact Or.inl rfl
  · rw [Option.bind_eq_bind, Option.bind_eq_some_iff] at result
    obtain ⟨vnode, live, result⟩ := result
    dsimp only at result
    split_ifs at result with grows failed
    · cases result
      exact Or.inl rfl
    · cases result
      exact Or.inr ⟨vnode, live, grows, failed, rfl⟩
    · cases result
      exact Or.inl rfl

/-! `vfs_lookup` -/

theorem searchSiblings_live {vnodes : U64 → Option Vnode} {name : List U8} {fuel : Nat}
    {start found : U64} (result : searchSiblings vnodes name fuel start = some found) :
    found = 0#64 ∨ ∃ vnode, vnodes found = some vnode := by
  induction fuel generalizing start with
  | zero => cases result
  | succ fuel inductionHypothesis =>
      unfold searchSiblings at result
      split_ifs at result with ends
      · exact Or.inl (Option.some.inj result).symm
      · rw [Option.bind_eq_bind, Option.bind_eq_some_iff] at result
        obtain ⟨vnode, live, result⟩ := result
        split_ifs at result with named
        · cases result
          exact Or.inr ⟨vnode, live⟩
        · exact inductionHypothesis result

theorem vfsSearchNode_live {name : List U8} {found : U64}
    (result : vfsSearchNode vfs parent name = some found) :
    found = 0#64 ∨ ∃ vnode, vfs.vnodes found = some vnode := by
  unfold vfsSearchNode at result
  split_ifs at result with null
  · exact Or.inl (Option.some.inj result).symm
  · rw [Option.bind_eq_bind, Option.bind_eq_some_iff] at result
    obtain ⟨vnode, -, result⟩ := result
    exact searchSiblings_live result

theorem traverseTokens_live {fuel : Nat} {last token start found : U64}
    (live : ∃ vnode, vfs.vnodes start = some vnode)
    (result : traverseTokens vfs fuel memory last token start = some found) :
    found = 0#64 ∨ ∃ vnode, vfs.vnodes found = some vnode := by
  induction fuel generalizing memory last token start with
  | zero => cases result
  | succ fuel inductionHypothesis =>
      unfold traverseTokens at result
      split_ifs at result with ends
      · cases result
        exact Or.inr live
      · rw [Option.bind_eq_bind, Option.bind_eq_some_iff] at result
        obtain ⟨child, search, result⟩ := result
        split_ifs at result with missing
        · exact Or.inl (Option.some.inj result).symm
        · exact inductionHypothesis ((vfsSearchNode_live search).resolve_left missing) result

/-- A lookup leaves the tree alone. -/
theorem vfsLookup_unchanged {last found : U64} {path : List U8}
    (result : vfsLookup vfs last path = some (found, next)) :
    next.vnodes = vfs.vnodes ∧ next.root = vfs.root := by
  unfold vfsLookup vfsTraversePath at result
  simp only [kmalloc_snd] at result
  split_ifs at result with unmounted slash failed
  · cases result
    exact ⟨rfl, rfl⟩
  · cases result
    exact ⟨rfl, rfl⟩
  · cases result
    exact ⟨rfl, rfl⟩
  · rw [Option.bind_eq_bind, Option.bind_eq_some_iff] at result
    obtain ⟨child, -, result⟩ := result
    cases result
    exact ⟨rfl, rfl⟩

/-- A lookup finds `NULL` or a live node. -/
theorem vfsLookup_live {last found : U64} {path : List U8}
    (rootLive : ∃ vnode, vfs.vnodes vfs.root = some vnode)
    (result : vfsLookup vfs last path = some (found, next)) :
    found = 0#64 ∨ ∃ vnode, vfs.vnodes found = some vnode := by
  unfold vfsLookup vfsTraversePath at result
  simp only [kmalloc_snd] at result
  split_ifs at result with unmounted slash failed
  · cases result
    exact Or.inl rfl
  · cases result
    exact Or.inr rootLive
  · cases result
    exact Or.inl rfl
  · rw [Option.bind_eq_bind, Option.bind_eq_some_iff] at result
    obtain ⟨child, walked, result⟩ := result
    cases result
    exact @traverseTokens_live { vfs with supply := vfs.supply.tail } _ _ _ _ _ _ rootLive walked

end Nekonix
