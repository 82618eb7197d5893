import Nekonix.Dev.Vfs.Effects
import Nekonix.Dev.Vfs.Shape
import Nekonix.Dev.Vfs.Sequences
import Nekonix.Fs.Ramfs.Archive
import Mathlib.Data.List.Find

/-!
# Nodes of an archive

The tree below the root and the entries of an archive: a node for each path, whose children are
the entries one component further, in their order.  A node that is appended is the next entry.
-/

namespace Nekonix

open LinkedList

/-- The root's path and those of the entries. -/
def archivePaths (entries : List ArchiveEntry) : List (List (List U8)) :=
  [] :: entries.map ArchiveEntry.path

/-- The entries in the directory `path`. -/
def childEntries (entries : List ArchiveEntry) (path : List (List U8)) : List ArchiveEntry :=
  entries.filter fun entry => entry.path.dropLast = path

/-- The nodes of the entries in the directory `path`. -/
def childNodes (nodeOf : List (List U8) → U64) (entries : List ArchiveEntry)
    (path : List (List U8)) : List U64 :=
  (childEntries entries path).map fun entry => nodeOf entry.path

/-- The vnode has what the entry says. -/
structure Vnode.Holds (memory : Memory) (entry : ArchiveEntry) (vnode : Vnode) : Prop where
  type : vnode.type = entry.type
  permissions : SamePermissions entry.mode vnode.permissions
  name : entry.path.getLast? = some vnode.name.text
  size : entry.type = .file → vnode.size.toNat = entry.content.length
  content : entry.type = .file → bytesAt memory vnode.data entry.content.length = entry.content

/-- Its contents lie below `limit`. -/
structure Vnode.HoldsBelow (memory : Memory) (limit : Nat) (entry : ArchiveEntry) (vnode : Vnode) :
    Prop extends vnode.Holds memory entry where
  below : entry.type = .file → vnode.data.toNat + entry.content.length ≤ limit

/-- `nodeOf` leads from each path of `entries` to its node. -/
structure Unpacked (memory : Memory) (limit : Nat) (vfs : Vfs) (entries : List ArchiveEntry)
    (nodeOf : List (List U8) → U64) : Prop where
  root : nodeOf [] = vfs.root
  nonnull : 0#64 ∉ (archivePaths entries).map nodeOf
  distinct : ((archivePaths entries).map nodeOf).Nodup
  parents : ∀ entry ∈ entries, entry.path.dropLast ∈ archivePaths entries
  children : ∀ path ∈ archivePaths entries,
    LiveChildren vfs.vnodes (nodeOf path) (childNodes nodeOf entries path)
  holds : ∀ entry ∈ entries, ∃ vnode,
    vfs.vnodes (nodeOf entry.path) = some vnode ∧ vnode.HoldsBelow memory limit entry

variable {memory other : Memory} {limit : Nat} {vfs next : Vfs} {entries : List ArchiveEntry}
  {entry : ArchiveEntry} {nodeOf : List (List U8) → U64} {path : List (List U8)} {name : List U8}
  {vnode changed : Vnode} {made : U64}

/-! Paths -/

theorem mem_archivePaths : path ∈ archivePaths entries ↔
    path = [] ∨ ∃ entry ∈ entries, entry.path = path := by
  rw [archivePaths, List.mem_cons, List.mem_map]

theorem archivePaths_append (entries : List ArchiveEntry) (entry : ArchiveEntry) :
    archivePaths (entries ++ [entry]) = archivePaths entries ++ [entry.path] := by
  rw [archivePaths, List.map_append]
  rfl

theorem path_mem (listed : entry ∈ entries) : entry.path ∈ archivePaths entries :=
  mem_archivePaths.mpr (.inr ⟨entry, listed, rfl⟩)

theorem mem_childEntries :
    entry ∈ childEntries entries path ↔ entry ∈ entries ∧ entry.path.dropLast = path := by
  rw [childEntries, List.mem_filter, decide_eq_true_eq]

/-- The path of a child is that of its parent with a name behind. -/
theorem path_eq_append_iff {whole : List (List U8)} (nonempty : whole ≠ []) :
    whole = path ++ [name] ↔ whole.dropLast = path ∧ whole.getLast? = some name := by
  rcases List.eq_nil_or_concat' whole with rfl | ⟨front, last, rfl⟩
  · exact absurd rfl nonempty
  · rw [List.dropLast_concat, List.getLast?_concat, Option.some_inj, List.append_singleton_inj]

namespace Vnode.HoldsBelow

/-- Links do not matter. -/
theorem of_unlinked (holds : vnode.HoldsBelow memory limit entry)
    (same : changed.unlinked = vnode.unlinked) : changed.HoldsBelow memory limit entry := by
  have fields := fun {α : Type} (read : Vnode → α) => congrArg read same
  have type : changed.type = vnode.type := fields Vnode.type
  have permissions : changed.permissions = vnode.permissions := fields Vnode.permissions
  have name : changed.name = vnode.name := fields Vnode.name
  have size : changed.size = vnode.size := fields Vnode.size
  have data : changed.data = vnode.data := fields Vnode.data
  refine ⟨⟨type.trans holds.type, ?_, ?_, ?_, ?_⟩, ?_⟩
  · rw [permissions]
    exact holds.permissions
  · rw [name]
    exact holds.name
  · rw [size]
    exact holds.size
  · rw [data]
    exact holds.content
  · rw [data]
    exact holds.below

/-- Neither does what lies behind the contents. -/
theorem later {further : Nat} (holds : vnode.HoldsBelow memory limit entry)
    (behind : limit ≤ further) (inside : limit ≤ 2 ^ 64)
    (agree : ∀ address : U64, address.toNat < limit → other address = memory address) :
    vnode.HoldsBelow other further entry := by
  refine { holds with
    content := fun isFile => ?_
    below := fun isFile => (holds.below isFile).trans behind }
  have below := holds.below isFile
  refine (bytesAt_congr fun position short => agree _ ?_).trans (holds.content isFile)
  rw [BitVec.toNat_add, BitVec.toNat_ofNat]
  omega

end Vnode.HoldsBelow

/-! A node more -/

/-- A link that is led elsewhere changes no other field. -/
theorem relink_unlinked (vnodes : U64 → Option Vnode) (parent : U64) (before : List U64)
    (target other : U64) :
    (relink vnodes parent before target other).map Vnode.unlinked =
      (vnodes other).map Vnode.unlinked :=
  map_relink other (fun _ _ => rfl) fun _ => rfl

/-- The children of another vnode stay when one is linked behind the last of `parent`. -/
theorem LiveChildren.beside {parent : U64} {list : List U64} {elsewhere : U64} {others : List U64}
    (children : LiveChildren vfs.vnodes elsewhere others)
    (fresh : vfs.vnodes made = none) (different : elsewhere ≠ parent)
    (apart : ∀ node ∈ others, node ∉ list) :
    LiveChildren (Function.update (relink vfs.vnodes parent list made) made (some vnode)) elsewhere
      others := by
  obtain ⟨notElsewhere, notListed⟩ := children.ne_fresh fresh
  refine LiveChildren.update ?_ notElsewhere notListed _
  obtain ⟨holder, live, siblings⟩ := children
  have sameChild := @map_relink vfs.vnodes parent made list U64 Vnode.child elsewhere
    (fun isParent => absurd isParent different) fun _ => rfl
  rw [live, Option.map_some, Option.map_eq_some_iff] at sameChild
  obtain ⟨found, foundLive, child⟩ := sameChild
  refine ⟨found, foundLive, ?_, fun node listed => ?_⟩
  · rw [child]
    exact siblings.segment.congr fun node listed => nextOf_relink (apart node listed)
  · have stillLive := relink_unlinked vfs.vnodes parent list made node
    obtain ⟨before, nodeLive⟩ := siblings.live node listed
    rw [nodeLive, Option.map_some, Option.map_eq_some_iff] at stillLive
    exact stillLive.imp fun _ found => found.1

namespace Unpacked

theorem node_inj (unpacked : Unpacked memory limit vfs entries nodeOf)
    {first second : List (List U8)} (firstListed : first ∈ archivePaths entries) (secondListed : second ∈ archivePaths entries)
    (same : nodeOf first = nodeOf second) : first = second :=
  List.inj_on_of_nodup_map unpacked.distinct firstListed secondListed same

theorem live (unpacked : Unpacked memory limit vfs entries nodeOf)
    (listed : path ∈ archivePaths entries) : vfs.Live (nodeOf path) := by
  obtain ⟨vnode, live, -⟩ := unpacked.children path listed
  exact ⟨vnode, live⟩

/-- What lies behind the contents may change. -/
theorem later {further : Nat} (unpacked : Unpacked memory limit vfs entries nodeOf)
    (behind : limit ≤ further) (inside : limit ≤ 2 ^ 64)
    (agree : ∀ address : U64, address.toNat < limit → other address = memory address) :
    Unpacked other further vfs entries nodeOf := by
  refine { unpacked with holds := fun entry listed => ?_ }
  obtain ⟨vnode, live, holds⟩ := unpacked.holds entry listed
  exact ⟨vnode, live, holds.later behind inside agree⟩

/-- Below a new path there is nothing yet. -/
theorem childless (unpacked : Unpacked memory limit vfs entries nodeOf)
    (isNew : path ∉ archivePaths entries) : childNodes nodeOf entries path = [] := by
  refine List.map_eq_nil_iff.mpr (List.eq_nil_iff_forall_not_mem.mpr fun entry listed => isNew ?_)
  obtain ⟨inEntries, rfl⟩ := mem_childEntries.mp listed
  exact unpacked.parents entry inEntries

end Unpacked

/-- `made` is linked behind the children of the parent of `entry`. -/
structure EntryAdded (nodeOf : List (List U8) → U64) (entries : List ArchiveEntry) (vfs : Vfs)
    (entry : ArchiveEntry) (made : U64) (vnode : Vnode) (next : Vfs) : Prop where
  parentListed : entry.path.dropLast ∈ archivePaths entries
  isNew : entry.path ∉ archivePaths entries
  nonnull : made ≠ 0#64
  fresh : vfs.vnodes made = none
  noChild : vnode.child = 0#64
  last : vnode.next = 0#64
  vnodes : next.vnodes = Function.update
    (relink vfs.vnodes (nodeOf entry.path.dropLast)
      (childNodes nodeOf entries entry.path.dropLast) made) made (some vnode)
  root : next.root = vfs.root

namespace EntryAdded

/-- The nodes of the other paths are those of before. -/
theorem node_old (added : EntryAdded nodeOf entries vfs entry made vnode next)
    (listed : path ∈ archivePaths entries) :
    Function.update nodeOf entry.path made path = nodeOf path := by
  refine Function.update_of_ne ?_ _ _
  rintro rfl
  exact added.isNew listed

theorem nodes (added : EntryAdded nodeOf entries vfs entry made vnode next) :
    (archivePaths (entries ++ [entry])).map (Function.update nodeOf entry.path made) =
      (archivePaths entries).map nodeOf ++ [made] := by
  rw [archivePaths_append, List.map_append, List.map_congr_left fun path => added.node_old,
    List.map_singleton, Function.update_self]

theorem childNodes_old (added : EntryAdded nodeOf entries vfs entry made vnode next)
    (path : List (List U8)) :
    childNodes (Function.update nodeOf entry.path made) entries path =
      childNodes nodeOf entries path :=
  List.map_congr_left fun _ listed => added.node_old (path_mem (mem_childEntries.mp listed).1)

theorem childNodes_eq (added : EntryAdded nodeOf entries vfs entry made vnode next)
    (path : List (List U8)) :
    childNodes (Function.update nodeOf entry.path made) (entries ++ [entry]) path =
      childNodes nodeOf entries path ++ if entry.path.dropLast = path then [made] else [] := by
  rw [← added.childNodes_old path]
  unfold childNodes childEntries
  rw [List.filter_append, List.filter_singleton, List.map_append]
  by_cases isParent : entry.path.dropLast = path <;> simp [isParent]

theorem children (added : EntryAdded nodeOf entries vfs entry made vnode next)
    (unpacked : Unpacked memory limit vfs entries nodeOf)
    (listed : path ∈ archivePaths (entries ++ [entry])) :
    LiveChildren next.vnodes (Function.update nodeOf entry.path made path)
      (childNodes (Function.update nodeOf entry.path made) (entries ++ [entry]) path) := by
  rw [added.vnodes, added.childNodes_eq]
  rw [archivePaths_append, List.mem_append, List.mem_singleton] at listed
  rcases listed with inPaths | rfl
  · rw [added.node_old inPaths]
    by_cases isParent : entry.path.dropLast = path
    · rw [if_pos isParent, isParent]
      exact (unpacked.children path inPaths).appended added.nonnull added.fresh added.last
    · rw [if_neg isParent, List.append_nil]
      refine (unpacked.children path inPaths).beside added.fresh ?_ ?_
      · exact fun same => isParent (unpacked.node_inj inPaths added.parentListed same).symm
      · intro node inPath inParent
        obtain ⟨first, firstChild, rfl⟩ := List.mem_map.mp inPath
        obtain ⟨second, secondChild, same⟩ := List.mem_map.mp inParent
        obtain ⟨firstListed, isPath⟩ := mem_childEntries.mp firstChild
        obtain ⟨secondListed, isParentPath⟩ := mem_childEntries.mp secondChild
        have samePath := unpacked.node_inj (path_mem secondListed) (path_mem firstListed) same
        exact isParent (by rw [← isParentPath, samePath, isPath])
  · have notOwnParent : entry.path.dropLast ≠ entry.path :=
      fun same => added.isNew (same ▸ added.parentListed)
    rw [if_neg notOwnParent, List.append_nil, unpacked.childless added.isNew, Function.update_self]
    exact ⟨vnode, Function.update_self .., added.noChild,
      fun _ listed => absurd listed List.not_mem_nil⟩

/-- What the other nodes hold stays. -/
theorem holds_old (added : EntryAdded nodeOf entries vfs entry made vnode next)
    {node : U64} {found : Vnode} {other : ArchiveEntry}
    (live : vfs.vnodes node = some found) (holds : found.HoldsBelow memory limit other) :
    ∃ changed, next.vnodes node = some changed ∧ changed.HoldsBelow memory limit other := by
  rw [added.vnodes, Function.update_of_ne (ne_of_live_dead live added.fresh)]
  have kept := relink_unlinked vfs.vnodes (nodeOf entry.path.dropLast)
    (childNodes nodeOf entries entry.path.dropLast) made node
  rw [live, Option.map_some, Option.map_eq_some_iff] at kept
  obtain ⟨changed, changedLive, same⟩ := kept
  exact ⟨changed, changedLive, holds.of_unlinked same⟩

/-- Blocks in no use stay so. -/
theorem unused {block : U64} (added : EntryAdded nodeOf entries vfs entry made vnode next)
    (different : block ≠ made) (fresh : vfs.vnodes block = none) : next.vnodes block = none := by
  rw [added.vnodes, Function.update_of_ne different]
  have kept := relink_unlinked vfs.vnodes (nodeOf entry.path.dropLast)
    (childNodes nodeOf entries entry.path.dropLast) made block
  rwa [fresh, Option.map_none, Option.map_eq_none_iff] at kept

/-- The node of the entry joins those of the entries before it. -/
theorem unpacked (added : EntryAdded nodeOf entries vfs entry made vnode next)
    (unpacked : Unpacked memory limit vfs entries nodeOf)
    (holds : vnode.HoldsBelow memory limit entry) :
    Unpacked memory limit next (entries ++ [entry]) (Function.update nodeOf entry.path made) := by
  refine ⟨?root, ?nonnull, ?distinct, ?parents, fun path => added.children unpacked, ?holds⟩
  case root =>
    rw [added.node_old List.mem_cons_self, unpacked.root, added.root]
  case nonnull =>
    rw [added.nodes, List.mem_append, List.mem_singleton, not_or]
    exact ⟨unpacked.nonnull, added.nonnull.symm⟩
  case distinct =>
    rw [added.nodes, ← List.concat_eq_append]
    refine unpacked.distinct.concat fun listed => ?_
    obtain ⟨path, inPaths, rfl⟩ := List.mem_map.mp listed
    obtain ⟨found, live⟩ := unpacked.live inPaths
    exact ne_of_live_dead live added.fresh rfl
  case parents =>
    intro other listed
    rw [archivePaths_append]
    refine List.mem_append_left _ ?_
    rcases List.mem_append.mp listed with inEntries | isEntry
    · exact unpacked.parents other inEntries
    · rw [List.mem_singleton.mp isEntry]
      exact added.parentListed
  case holds =>
    intro other listed
    rcases List.mem_append.mp listed with inEntries | isEntry
    · obtain ⟨found, live, holds⟩ := unpacked.holds other inEntries
      rw [added.node_old (path_mem inEntries)]
      exact added.holds_old live holds
    · rw [List.mem_singleton.mp isEntry, Function.update_self, added.vnodes]
      exact ⟨vnode, Function.update_self .., holds⟩

end EntryAdded

/-! What is found -/

theorem Vnode.Holds.properName (holds : vnode.Holds memory entry) (proper : entry.Proper) :
    ProperName vnode.name.text :=
  (proper.names _ (List.mem_of_getLast? holds.name)).1

/-- The siblings from a live vnode on are those that its links lead to. -/
theorem Siblings.listed_iff {vnodes : U64 → Option Vnode} {start node : U64} {list : List U64}
    (siblings : Siblings vnodes start list) : Listed vnodes node start ↔ node ∈ list := by
  induction list generalizing start with
  | nil =>
      obtain rfl : start = 0#64 := siblings.segment
      refine iff_of_false (fun listed => ?_) List.not_mem_nil
      cases listed with
      | here nonnull => exact nonnull rfl
      | behind nonnull _ _ => exact nonnull rfl
  | cons first rest inductionHypothesis =>
      obtain ⟨found, live⟩ := siblings.live first List.mem_cons_self
      have further := inductionHypothesis (siblings.tail live)
      obtain ⟨rfl, nonnull, -⟩ := siblings.segment
      rw [List.mem_cons]
      constructor
      · intro listed
        cases listed with
        | here => exact .inl rfl
        | behind _ alsoLive behind =>
            rw [live] at alsoLive
            cases alsoLive
            exact .inr (further.mp behind)
      · rintro (rfl | later)
        · exact .here nonnull
        · exact .behind nonnull live (further.mpr later)

theorem LiveChildren.isChild_iff {parent node : U64} {list : List U64}
    (children : LiveChildren vfs.vnodes parent list) : vfs.IsChild parent node ↔ node ∈ list := by
  obtain ⟨found, live, siblings⟩ := children
  rw [← siblings.listed_iff]
  constructor
  · rintro ⟨alsoFound, alsoLive, listed⟩
    rw [live] at alsoLive
    cases alsoLive
    exact listed
  · exact fun listed => ⟨found, live, listed⟩

namespace Unpacked

theorem nonnull_node (unpacked : Unpacked memory limit vfs entries nodeOf)
    (listed : path ∈ archivePaths entries) : nodeOf path ≠ 0#64 := by
  intro isNull
  exact unpacked.nonnull (isNull ▸ List.mem_map_of_mem listed)

/-- With a path its parents are listed. -/
theorem prefix_listed (unpacked : Unpacked memory limit vfs entries nodeOf)
    {before after : List (List U8)} (listed : before ++ after ∈ archivePaths entries) :
    before ∈ archivePaths entries := by
  induction after using List.reverseRecOn with
  | nil => rwa [List.append_nil] at listed
  | append_singleton front last inductionHypothesis =>
      rw [← List.append_assoc] at listed
      rcases mem_archivePaths.mp listed with empty | ⟨entry, inEntries, isPath⟩
      · exact absurd empty (by simp)
      · have parent := unpacked.parents entry inEntries
        rw [isPath, List.dropLast_concat] at parent
        exact inductionHypothesis parent

/-- The search in a directory finds the entry that has the name. -/
theorem search (unpacked : Unpacked memory limit vfs entries nodeOf)
    (proper : ∀ entry ∈ entries, entry.Proper) (listed : path ∈ archivePaths entries)
    (nonzero : ∀ c ∈ name, c ≠ 0#8) :
    vfsSearchNode vfs (nodeOf path) name =
      some (((entries.find? fun entry => entry.path = path ++ [name]).map fun entry =>
        nodeOf entry.path).getD 0#64) := by
  have names : ∀ node ∈ childNodes nodeOf entries path, ∀ vnode, vfs.vnodes node = some vnode →
      ∀ c ∈ vnode.name.text, c ≠ 0#8 := by
    intro node inPath vnode live
    obtain ⟨entry, child, rfl⟩ := List.mem_map.mp inPath
    have inEntries := (mem_childEntries.mp child).1
    obtain ⟨found, foundLive, holds⟩ := unpacked.holds entry inEntries
    rw [live] at foundLive
    cases foundLive
    exact (holds.toHolds.properName (proper entry inEntries)).nonzero
  rw [vfsSearchNode_first (unpacked.children path listed) (unpacked.nonnull_node listed) nonzero
    names, firstNamed, childNodes, childEntries, List.find?_map, List.find?_filter]
  congr 3
  refine List.find?_congr fun entry inEntries => ?_
  obtain ⟨found, live, holds⟩ := unpacked.holds entry inEntries
  rw [Function.comp_apply, live, Option.any_some, decide_eq_decide, decide_eq_true_eq,
    decide_eq_true_eq, path_eq_append_iff (proper entry inEntries).named, holds.name,
    Option.some_inj]

theorem search_listed (unpacked : Unpacked memory limit vfs entries nodeOf)
    (proper : ∀ entry ∈ entries, entry.Proper)
    (listed : path ++ [name] ∈ archivePaths entries) :
    vfsSearchNode vfs (nodeOf path) name = some (nodeOf (path ++ [name])) := by
  rcases mem_archivePaths.mp listed with empty | ⟨entry, inEntries, isPath⟩
  · exact absurd empty (by simp)
  have inPath : name ∈ entry.path := by simp [isPath]
  have nonzero := ((proper entry inEntries).names name inPath).1.nonzero
  rw [unpacked.search proper (unpacked.prefix_listed listed) nonzero]
  cases found : entries.find? fun entry => entry.path = path ++ [name] with
  | none =>
      have missed := List.find?_eq_none.mp found entry inEntries
      exact absurd (decide_eq_true isPath) missed
  | some first =>
      have sameName := List.find?_some found
      rw [decide_eq_true_eq] at sameName
      rw [Option.map_some, Option.getD_some, sameName]

theorem search_absent (unpacked : Unpacked memory limit vfs entries nodeOf)
    (proper : ∀ entry ∈ entries, entry.Proper) (listed : path ∈ archivePaths entries)
    (nonzero : ∀ c ∈ name, c ≠ 0#8) (absent : path ++ [name] ∉ archivePaths entries) :
    vfsSearchNode vfs (nodeOf path) name = some 0#64 := by
  rw [unpacked.search proper listed nonzero, List.find?_eq_none.mpr]
  · rfl
  · intro entry inEntries isPath
    rw [decide_eq_true_eq] at isPath
    exact absent (isPath ▸ path_mem inEntries)

/-- The names of a path lead down to its node. -/
theorem descend_eq (unpacked : Unpacked memory limit vfs entries nodeOf)
    (proper : ∀ entry ∈ entries, entry.Proper) {before after : List (List U8)}
    (listed : before ++ after ∈ archivePaths entries) :
    descend vfs (nodeOf before) after = some (nodeOf (before ++ after)) := by
  induction after generalizing before with
  | nil => rw [descend, List.append_nil]
  | cons name after inductionHypothesis =>
      rw [List.append_cons] at listed ⊢
      have further := unpacked.prefix_listed listed
      rw [descend, unpacked.search_listed proper further, Option.bind_eq_bind, Option.bind_some,
        if_neg (unpacked.nonnull_node further)]
      exact inductionHypothesis listed

theorem root_nonnull (unpacked : Unpacked memory limit vfs entries nodeOf) : vfs.root ≠ 0#64 := by
  rw [← unpacked.root]
  exact unpacked.nonnull_node List.mem_cons_self

/-- The components of a path lead from the root to its node. -/
theorem descend_root (unpacked : Unpacked memory limit vfs entries nodeOf)
    (proper : ∀ entry ∈ entries, entry.Proper) (listed : path ∈ archivePaths entries) :
    descend vfs vfs.root path = some (nodeOf path) := by
  have descended := @descend_eq _ _ _ _ nodeOf unpacked proper [] path listed
  rwa [unpacked.root, List.nil_append] at descended

theorem isChild_iff (unpacked : Unpacked memory limit vfs entries nodeOf)
    (listed : path ∈ archivePaths entries) {node : U64} :
    vfs.IsChild (nodeOf path) node ↔
      ∃ entry ∈ entries, entry.path.dropLast = path ∧ nodeOf entry.path = node := by
  rw [(unpacked.children path listed).isChild_iff, childNodes, List.mem_map]
  refine exists_congr fun entry => ?_
  rw [mem_childEntries, and_assoc]

/-- Below the root there are the nodes of the entries, and no others. -/
theorem below_iff (unpacked : Unpacked memory limit vfs entries nodeOf)
    (proper : ∀ entry ∈ entries, entry.Proper) {node : U64} :
    Relation.TransGen vfs.IsChild vfs.root node ↔
      ∃ entry ∈ entries, nodeOf entry.path = node := by
  rw [← unpacked.root]
  constructor
  · intro below
    induction below with
    | single child =>
        obtain ⟨entry, inEntries, -, isNode⟩ := (unpacked.isChild_iff List.mem_cons_self).mp child
        exact ⟨entry, inEntries, isNode⟩
    | tail _ child inductionHypothesis =>
        obtain ⟨parent, parentListed, rfl⟩ := inductionHypothesis
        obtain ⟨entry, inEntries, -, isNode⟩ :=
          (unpacked.isChild_iff (path_mem parentListed)).mp child
        exact ⟨entry, inEntries, isNode⟩
  · rintro ⟨entry, inEntries, rfl⟩
    induction isLength : entry.path.length using Nat.strongRecOn generalizing entry with
    | ind length inductionHypothesis =>
        have parentListed := unpacked.parents entry inEntries
        have child : vfs.IsChild (nodeOf entry.path.dropLast) (nodeOf entry.path) :=
          (unpacked.isChild_iff parentListed).mpr ⟨entry, inEntries, rfl, rfl⟩
        rcases mem_archivePaths.mp parentListed with atRoot | ⟨parent, parentEntry, isParent⟩
        · rw [atRoot] at child
          exact .single child
        · have positive := List.length_pos_iff.mpr (proper entry inEntries).named
          have shorter : parent.path.length < length := by
            rw [isParent, List.length_dropLast]
            omega
          have above := inductionHypothesis _ shorter parent parentEntry rfl
          rw [isParent] at above
          exact above.tail child

variable {text : List U8} {block : U64} {supply : List U64}

/-- A lookup goes down along the components. -/
theorem lookup_eq (unpacked : Unpacked memory limit vfs entries nodeOf) (last : U64)
    (nonzero : ∀ c ∈ text, c ≠ 0#8) (hasName : components text ≠ []) (nonnull : block ≠ 0#64)
    (room : block.toNat + text.length < 2 ^ 64) :
    (vfsLookup { vfs with supply := block :: supply } last text).map Prod.fst =
      descend vfs vfs.root (components text) := by
  have notRoot : text ≠ rootName := by
    rintro rfl
    exact hasName (by rw [rootName, components_slash, components_nil])
  have looked := @vfsLookup_eq { vfs with supply := block :: supply } text (components text) block
    supply unpacked.root_nonnull nonzero notRoot rfl nonnull room (tokens_components text) last
  rw [looked, Option.map_map]
  have same := @descend_supply { vfs with supply := block :: supply } vfs.root (components text)
    supply
  have again := @descend_supply vfs vfs.root (components text) (block :: supply)
  rw [same, again]
  exact Option.map_id'

theorem lookup_absolute (unpacked : Unpacked memory limit vfs entries nodeOf)
    (proper : ∀ entry ∈ entries, entry.Proper) (listed : entry ∈ entries) (last : U64)
    (nonnull : block ≠ 0#64) (room : block.toNat + entry.absolutePath.length < 2 ^ 64) :
    (vfsLookup { vfs with supply := block :: supply } last entry.absolutePath).map Prod.fst =
      some (nodeOf entry.path) := by
  have entryProper := proper entry listed
  have isPath := entryProper.absolutePath_components
  have hasName : components entry.absolutePath ≠ [] := by
    rw [isPath]
    exact entryProper.named
  rw [unpacked.lookup_eq last entryProper.absolutePath_nonzero hasName nonnull room, isPath]
  exact unpacked.descend_root proper (path_mem listed)

/-- Under its name in the archive no entry is found. -/
theorem lookup_name (unpacked : Unpacked memory limit vfs entries nodeOf)
    (proper : ∀ entry ∈ entries, entry.Proper) (listed : entry ∈ entries) (last : U64)
    (nonnull : block ≠ 0#64) (room : block.toNat + entry.name.length < 2 ^ 64) :
    (vfsLookup { vfs with supply := block :: supply } last entry.name).map Prod.fst =
      some 0#64 := by
  have entryProper := proper entry listed
  have absent : [] ++ [[charDot]] ∉ archivePaths entries := by
    intro dotted
    rcases mem_archivePaths.mp dotted with empty | ⟨other, inEntries, isPath⟩
    · cases empty
    · exact ((proper other inEntries).names [charDot] (by simp [isPath])).2.1 rfl
  have search := unpacked.search_absent proper List.mem_cons_self (by decide) absent
  rw [unpacked.root] at search
  rw [unpacked.lookup_eq last entryProper.name_nonzero (by simp [entryProper.name_components])
    nonnull room, entryProper.name_components, descend, search]
  rfl

end Unpacked

end Nekonix
