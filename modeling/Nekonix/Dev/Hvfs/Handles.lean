import Nekonix.Dev.Vfs.Effects
import Nekonix.Dev.Vfs.Shape
import Nekonix.Dev.Hvfs

/-!
# Open handles and removed nodes

Runs of the calls of `dev/hvfs.c` together with `vfs_create`, `vfs_remove` and `vfs_write`.  A
vnode does not know of the handles that refer to it: `vfs_remove` frees it all the
same.  As long as no removal takes a node that is open, every handle leads to a
live vnode.
-/

namespace Nekonix

open Transition

namespace Hvfs

inductive Call where
  | openFile (last : U64) (path : Option (List U8)) (mode : U32)
  | read (file buffer size : U64)
  | write (krealloc : Krealloc) (file buffer size : U64)
  | chmod (file : U64) (permissions : U32)
  | close (file : U64)
  | tree (call : VfsCall)
  | fill (krealloc : Krealloc) (node : U64) (offset size : U32) (buffer : U64)

def Call.apply (state : State) : Call → Option State
  | .openFile last path mode => (Hvfs.openFile state last path mode).map Prod.snd
  | .read file buffer size =>
      (Hvfs.read state.vfs state.memory (state.files file) buffer size).map
        fun result => { state with memory := result.2 }
  | .write krealloc file buffer size =>
      (Hvfs.write krealloc state.vfs state.memory (state.files file) buffer size).map
        fun result => { state with vfs := result.2.1, memory := result.2.2 }
  | .chmod file permissions =>
      (Hvfs.chmod state.vfs (state.files file) permissions).map
        fun result => { state with vfs := result.2 }
  | .close file => some (Hvfs.close state file).2
  | .tree call => (call.apply state.vfs).map fun vfs => { state with vfs }
  | .fill krealloc node offset size buffer =>
      (vfsWrite krealloc state.vfs state.memory node offset size buffer).map
        fun result => { state with vfs := result.2.1, memory := result.2.2 }

/-- `NULL`, or a handle that `open` returned and `close` has not released. -/
def State.Valid (state : State) (file : U64) : Prop :=
  file = 0#64 ∨ ∃ handle, state.files file = some handle

/-- The handles are valid and the node arguments live. -/
def Call.Allowed (state : State) : Call → Prop
  | .openFile _ _ _ => True
  | .read file _ _ => state.Valid file
  | .write _ file _ _ => state.Valid file
  | .chmod file _ => state.Valid file
  | .close file => state.Valid file
  | .tree call => call.Allowed state.vfs
  | .fill _ node _ _ _ => state.vfs.Live node

/-- The call goes through a handle to its vnode. -/
def Call.UsesHandle : Call → Prop
  | .read _ _ _ => True
  | .write _ _ _ _ => True
  | .chmod _ _ => True
  | _ => False

/-- A removal takes out no node that an open handle refers to. -/
def Call.SparesOpen (state : State) : Call → Prop
  | .tree (.remove parent node) => state.vfs.IsChild parent node →
      ∀ fd file, state.files fd = some file → file.vnode ≠ node
  | _ => True

def Step (state : State) (call : Call) (next : State) : Prop :=
  call.Allowed state ∧ call.apply state = some next

def SparingStep (state : State) (call : Call) (next : State) : Prop :=
  Step state call next ∧ call.SparesOpen state

/-- A file tree before any file is opened. -/
def State.unopened (vfs : Vfs) (memory : Memory) : State where
  vfs := vfs
  files := fun _ => none
  memory := memory

/-- Every open handle refers to a live vnode. -/
def State.HandlesLive (state : State) : Prop :=
  ∀ fd file, state.files fd = some file → state.vfs.Live file.vnode

end Hvfs

variable {vfs next : Vfs} {parent node other made root : U64} {vnode : Vnode}

/-! The root stays -/

/-- The root is live, and no vnode links to it as a child or a sibling. -/
structure RootKept (vfs : Vfs) : Prop where
  live : vfs.Live vfs.root
  null : vfs.vnodes 0#64 = none
  child : ∀ node vnode, vfs.vnodes node = some vnode → vnode.child ≠ vfs.root
  next : ∀ node vnode, vfs.vnodes node = some vnode → vnode.next ≠ vfs.root

theorem Vfs.Live.ne_null (live : vfs.Live node) (null : vfs.vnodes 0#64 = none) : node ≠ 0#64 := by
  rintro rfl
  obtain ⟨vnode, live⟩ := live
  rw [null] at live
  cases live

theorem Vfs.Live.store (live : vfs.Live other) : (vfs.store node vnode).Live other := by
  by_cases here : other = node
  · rw [here]
    exact ⟨vnode, vfs.store_same node vnode⟩
  · obtain ⟨found, live⟩ := live
    exact ⟨found, by rw [Vfs.store_other here, live]⟩

theorem Vfs.Live.kfree (live : vfs.Live other) (different : other ≠ node) :
    (vfs.kfree node).Live other := by
  obtain ⟨found, live⟩ := live
  exact ⟨found, by rw [Vfs.kfree_other different, live]⟩

theorem Vfs.Live.congr (live : vfs.Live node) (same : next.vnodes = vfs.vnodes) :
    next.Live node := by
  unfold Vfs.Live
  rw [same]
  exact live

namespace RootKept

theorem congr (kept : RootKept vfs) (vnodes : next.vnodes = vfs.vnodes)
    (root : next.root = vfs.root) : RootKept next where
  live := by
    rw [root]
    exact kept.live.congr vnodes
  null := by
    rw [vnodes]
    exact kept.null
  child := by
    rw [vnodes, root]
    exact kept.child
  next := by
    rw [vnodes, root]
    exact kept.next

theorem ne_null (kept : RootKept vfs) : vfs.root ≠ 0#64 := kept.live.ne_null kept.null

theorem store (kept : RootKept vfs) (nonnull : node ≠ 0#64) (child : vnode.child ≠ vfs.root)
    (next : vnode.next ≠ vfs.root) : RootKept (vfs.store node vnode) where
  live := kept.live.store
  null := by
    rw [Vfs.store_other nonnull.symm]
    exact kept.null
  child := by
    intro other found live
    rcases Vfs.store_live live with ⟨-, rfl⟩ | ⟨-, before⟩
    · exact child
    · exact kept.child other found before
  next := by
    intro other found live
    rcases Vfs.store_live live with ⟨-, rfl⟩ | ⟨-, before⟩
    · exact next
    · exact kept.next other found before

theorem kfree (kept : RootKept vfs) (notRoot : node ≠ vfs.root) : RootKept (vfs.kfree node) where
  live := kept.live.kfree notRoot.symm
  null := by
    by_cases here : 0#64 = node
    · rw [here, Vfs.kfree_same]
    · rw [Vfs.kfree_other here]
      exact kept.null
  child := fun other found live => kept.child other found (Vfs.kfree_live live).2
  next := fun other found live => kept.next other found (Vfs.kfree_live live).2

/-- Relinking a live vnode to anything but the root. -/
theorem relink (kept : RootKept vfs) {found changed : Vnode} (live : vfs.vnodes node = some found)
    (relinked : found.Relinked changed made) (notRoot : made ≠ vfs.root) :
    RootKept (vfs.store node changed) := by
  have nonnull := Vfs.Live.ne_null ⟨found, live⟩ kept.null
  rcases relinked with rfl | rfl
  · exact kept.store nonnull notRoot (kept.next node found live)
  · exact kept.store nonnull (kept.child node found live) notRoot

theorem not_listed (kept : RootKept vfs) {start : U64} (listed : Listed vfs.vnodes node start)
    (notStart : start ≠ vfs.root) : node ≠ vfs.root := by
  induction listed with
  | here _ => exact notStart
  | behind _ live _ inductionHypothesis => exact inductionHypothesis (kept.next _ _ live)

/-- No child is the root. -/
theorem not_child (kept : RootKept vfs) (child : vfs.IsChild parent node) : node ≠ vfs.root := by
  obtain ⟨parentNode, live, listed⟩ := child
  exact kept.not_listed listed (kept.child parent parentNode live)

theorem created {name : Option (List U8)} {type : VnodeType} {perms : U32} (kept : RootKept vfs)
    (fresh : ∀ block ∈ vfs.supply.head?, vfs.vnodes block = none)
    (created : VfsCreated vfs parent name type perms made next) :
    RootKept next ∧ ∀ other, vfs.Live other → next.Live other := by
  obtain ⟨copy, supply, holder, found, changed, supplied, -, holderLive, relinked, vnodes, root, -⟩ :=
    created.linked
  have notRoot : made ≠ vfs.root := by
    rintro rfl
    obtain ⟨vnode, live⟩ := kept.live
    rw [fresh _ (by rw [supplied]; rfl)] at live
    cases live
  have filled : RootKept (vfs.store made (newVnode parent copy type perms)) :=
    kept.store created.nonnull kept.ne_null.symm kept.ne_null.symm
  have linked := filled.relink holderLive relinked notRoot
  exact ⟨linked.congr vnodes root, fun other live => live.store.store.congr vnodes⟩

theorem unnamed {name : Option (List U8)} (kept : RootKept vfs)
    (fresh : ∀ block ∈ vfs.supply.head?, vfs.vnodes block = none)
    (unnamed : VfsUnnamed vfs parent name made next) :
    RootKept next ∧ ∀ other, vfs.Live other → next.Live other := by
  obtain ⟨supply, supplied, -, -⟩ := unnamed.supply
  have dead := fresh made (by rw [supplied]; rfl)
  have same : next.vnodes = vfs.vnodes := by
    rw [unnamed.vnodes, Vfs.kfree, ← dead, Function.update_eq_self]
  exact ⟨kept.congr same unnamed.root, fun other live => live.congr same⟩

/-- A creation keeps the root and every live vnode. -/
theorem create {name : Option (List U8)} {type : VnodeType} {perms error : U32}
    (kept : RootKept vfs) (fresh : ∀ block ∈ vfs.supply.head?, vfs.vnodes block = none)
    (result : vfsCreate vfs parent name type perms = some (error, made, next)) :
    RootKept next ∧ ∀ other, vfs.Live other → next.Live other := by
  rcases vfsCreate_cases result with ⟨-, created⟩ | ⟨-, refused | ⟨block, unnamed⟩⟩
  · exact kept.created fresh created
  · exact ⟨kept.congr refused.vnodes refused.root, fun other live => live.congr refused.vnodes⟩
  · exact kept.unnamed fresh unnamed

/-- A removal that takes effect keeps the root and every other live vnode. -/
theorem removed (kept : RootKept vfs) (child : vfs.IsChild parent node)
    (removed : VfsRemoved vfs node next) :
    RootKept next ∧ next.vnodes node = none ∧
      ∀ other, other ≠ node → vfs.Live other → next.Live other := by
  obtain ⟨gone, holder, found, changed, live, holderLive, relinked, rfl⟩ := removed.unlinked
  have linked := kept.relink holderLive relinked (kept.next node gone live)
  refine ⟨linked.kfree (kept.not_child child), ?_, fun other different live => live.store.kfree different⟩
  exact Vfs.kfree_same _ _

end RootKept

/-- `vfs_init` makes the root, and nothing links to it. -/
theorem vfsInit_rootKept {supply : List U64} (made : (vfsInit (Vfs.boot supply)).1 = 0#32) :
    RootKept (vfsInit (Vfs.boot supply)).2 := by
  have tree := vfsInit_tree made
  obtain ⟨rootNode, rootLive, -⟩ := tree.root
  have nonnull := tree.nonnull rootLive
  obtain ⟨node, copy, -, root, vnodes⟩ := vfsInit_boot made
  have only : ∀ other found, (vfsInit (Vfs.boot supply)).2.vnodes other = some found →
      found = rootVnode ⟨copy, rootName⟩ := by
    intro other found live
    rw [vnodes] at live
    by_cases here : other = node
    · rw [here, Function.update_self] at live
      exact (Option.some.inj live).symm
    · rw [Function.update_of_ne here] at live
      cases live
  refine ⟨⟨rootNode, rootLive⟩, tree.null, ?_, ?_⟩
  · intro other found live
    rw [only other found live]
    exact nonnull.symm
  · intro other found live
    rw [only other found live]
    exact nonnull.symm

namespace Hvfs

variable {state after : State} {call : Call}

/-! What the calls change -/

theorem lookup_unchanged {last found : U64} {path : Option (List U8)}
    (result : lookup vfs last path = some (found, next)) :
    next.vnodes = vfs.vnodes ∧ next.root = vfs.root := by
  cases path with
  | none =>
      cases result
      exact ⟨rfl, rfl⟩
  | some path => exact vfsLookup_unchanged result

theorem lookup_live {last found : U64} {path : Option (List U8)} (rootLive : vfs.Live vfs.root)
    (result : lookup vfs last path = some (found, next)) : found = 0#64 ∨ vfs.Live found := by
  cases path with
  | none =>
      cases result
      exact Or.inl rfl
  | some path => exact vfsLookup_live rootLive result

/-- `open` without a handle: for want of a block, because of its mode, or after the
lookup found nothing. -/
inductive NotOpened (state : State) (last : U64) (path : Option (List U8)) (mode : U32) :
    State → Prop where
  | unallocated : state.vfs.supply.head?.getD 0#64 = 0#64 →
      NotOpened state last path mode
        { state with vfs := { state.vfs with supply := state.vfs.supply.tail } }
  | creating : state.vfs.supply.head?.getD 0#64 ≠ 0#64 → mode &&& create ≠ 0#32 →
      NotOpened state last path mode
        { state with vfs := { state.vfs with supply := state.vfs.supply.tail } }
  | absent {found} : state.vfs.supply.head?.getD 0#64 ≠ 0#64 → mode &&& create = 0#32 →
      lookup { state.vfs with supply := state.vfs.supply.tail } last path = some (0#64, found) →
      NotOpened state last path mode { state with vfs := found }

/-- `open` with the handle `fd`. -/
structure Opened (state : State) (last : U64) (path : Option (List U8)) (mode : U32) (fd : U64)
    (after : State) : Prop where
  block : fd = state.vfs.supply.head?.getD 0#64
  nonnull : fd ≠ 0#64
  notCreating : mode &&& create = 0#32
  found : ∃ node found, node ≠ 0#64 ∧
    lookup { state.vfs with supply := state.vfs.supply.tail } last path = some (node, found) ∧
    after = { state with
      vfs := found
      files := Function.update state.files fd (some ⟨0#32, node, mode⟩) }

theorem openFile_cases {last fd : U64} {path : Option (List U8)} {mode : U32}
    (result : openFile state last path mode = some (fd, after)) :
    (fd = 0#64 ∧ NotOpened state last path mode after) ∨
      Opened state last path mode fd after := by
  unfold openFile at result
  simp only [kmalloc_fst, kmalloc_snd, Option.bind_eq_bind] at result
  split_ifs at result with failed creates
  · cases result
    exact Or.inl ⟨rfl, .unallocated failed⟩
  · cases result
    exact Or.inl ⟨rfl, .creating failed creates⟩
  · rw [Option.bind_eq_some_iff] at result
    obtain ⟨⟨node, found⟩, looked, result⟩ := result
    have notCreating := not_not.mp creates
    dsimp only at result looked
    split_ifs at result with missing
    · cases result
      subst missing
      exact Or.inl ⟨rfl, .absent failed notCreating looked⟩
    · cases result
      exact Or.inr ⟨rfl, failed, notCreating, node, found, missing, looked, rfl⟩

/-- `write` goes on to `vfs_write`. -/
def File.Writes (file : File) (vfs : Vfs) : Prop :=
  (file.mode = writeOnly ∨ file.mode = readWrite) ∧
    (∃ vnode, vfs.vnodes file.vnode = some vnode ∧ vnode.type = .file) ∧
    permissionCheck vfs file.vnode file.uid vnodePermsOwnerWrite = some true

/-- A write does what `vfs_write` does, or nothing. -/
theorem write_cases {krealloc : Krealloc} {memory memory' : Memory} {file : Option File}
    {buffer size : U64} {returned : U32}
    (result : Hvfs.write krealloc vfs memory file buffer size = some (returned, next, memory')) :
    (next = vfs ∧ ∀ handle, file = some handle → ¬handle.Writes vfs) ∨
      ∃ handle count, file = some handle ∧ handle.Writes vfs ∧
        vfsWrite krealloc vfs memory handle.vnode 0#32 (size.setWidth 32) buffer =
          some (count, next, memory') := by
  unfold Hvfs.write at result
  cases file with
  | none =>
      cases result
      exact Or.inl ⟨rfl, by simp⟩
  | some file =>
      dsimp only at result
      split_ifs at result with unwritable
      · cases result
        refine Or.inl ⟨rfl, ?_⟩
        rintro handle isFile ⟨writable, -⟩
        cases isFile
        exact writable.elim unwritable.1 unwritable.2
      · simp only [Option.bind_eq_bind] at result
        rw [Option.bind_eq_some_iff] at result
        obtain ⟨vnode, live, result⟩ := result
        split_ifs at result with directory
        · cases result
          refine Or.inl ⟨rfl, ?_⟩
          rintro handle isFile ⟨-, ⟨found, foundLive, isData⟩, -⟩
          cases isFile
          rw [live] at foundLive
          cases foundLive
          exact directory isData
        · rw [Option.bind_eq_some_iff] at result
          obtain ⟨permitted, checked, result⟩ := result
          cases permitted with
          | false =>
              cases result
              refine Or.inl ⟨rfl, ?_⟩
              rintro handle isFile ⟨-, -, permitted⟩
              cases isFile
              rw [checked] at permitted
              cases permitted
          | true =>
              rw [if_neg (by simp), Option.bind_eq_some_iff] at result
              obtain ⟨⟨count, found, memory⟩, written, result⟩ := result
              have same : next = found ∧ memory' = memory := by
                dsimp only at result
                split_ifs at result <;> cases result <;> exact ⟨rfl, rfl⟩
              rw [same.1, same.2]
              have writable : file.mode = writeOnly ∨ file.mode = readWrite := by
                by_contra neither
                rw [not_or] at neither
                exact unwritable neither
              exact Or.inr ⟨file, count, rfl,
                ⟨writable, ⟨vnode, live, not_not.mp directory⟩, checked⟩, written⟩

/-- A change of the permissions of a live vnode, or nothing. -/
theorem chmod_cases {file : Option File} {permissions returned : U32}
    (result : chmod vfs file permissions = some (returned, next)) :
    next = vfs ∨ ∃ node vnode, vfs.vnodes node = some vnode ∧
      next = vfs.store node { vnode with permissions } := by
  unfold chmod at result
  cases file with
  | none =>
      cases result
      exact Or.inl rfl
  | some file =>
      dsimp only at result
      split_ifs at result with null
      · cases result
        exact Or.inl rfl
      · simp only [Option.bind_eq_bind] at result
        rw [Option.bind_eq_some_iff] at result
        obtain ⟨⟨error, found⟩, changed, result⟩ := result
        have same : next = found := by
          dsimp only at result
          split_ifs at result <;> cases result <;> rfl
        rw [same]
        exact (vfsChmod_cases changed).imp_right fun stored => ⟨file.vnode, stored⟩

/-! Steps and runs -/

/-- The root stays, and the handles lead to live vnodes. -/
structure State.Sound (state : State) : Prop where
  root : RootKept state.vfs
  handles : state.HandlesLive

namespace State.Sound

/-- A change of the tree that keeps the root and the live vnodes. -/
theorem tree (sound : state.Sound) (root : RootKept next)
    (live : ∀ other, state.vfs.Live other → next.Live other) (memory : Memory) :
    State.Sound { state with vfs := next, memory } where
  root := root
  handles := fun fd file isOpen => live _ (sound.handles fd file isOpen)

theorem unchanged (sound : state.Sound) (vnodes : next.vnodes = state.vfs.vnodes)
    (root : next.root = state.vfs.root) : State.Sound { state with vfs := next } :=
  sound.tree (sound.root.congr vnodes root) (fun _ live => live.congr vnodes) state.memory

theorem openFile (sound : state.Sound) {last fd : U64} {path : Option (List U8)} {mode : U32}
    (result : Hvfs.openFile state last path mode = some (fd, after)) : after.Sound := by
  have rootLive : ({ state.vfs with supply := state.vfs.supply.tail } : Vfs).Live
      state.vfs.root := sound.root.live
  rcases openFile_cases result with ⟨-, notOpened⟩ | opened
  · cases notOpened with
    | unallocated _ => exact sound.unchanged rfl rfl
    | creating _ _ => exact sound.unchanged rfl rfl
    | absent _ _ looked =>
        obtain ⟨vnodes, root⟩ := lookup_unchanged looked
        exact sound.unchanged vnodes root
  · obtain ⟨node, found, nonnull, looked, rfl⟩ := opened.found
    obtain ⟨vnodes, root⟩ := lookup_unchanged looked
    have nodeLive := lookup_live rootLive looked
    refine ⟨sound.root.congr vnodes root, ?_⟩
    intro other file isOpen
    dsimp only at isOpen
    by_cases here : other = fd
    · subst here
      rw [Function.update_self] at isOpen
      cases isOpen
      exact (nodeLive.resolve_left nonnull).congr vnodes
    · rw [Function.update_of_ne here] at isOpen
      exact (sound.handles other file isOpen).congr vnodes

/-- Filling in other data of a live vnode. -/
theorem refill (sound : state.Sound) {found changed : Vnode}
    (live : state.vfs.vnodes node = some found) (child : changed.child = found.child)
    (sibling : changed.next = found.next) (memory : Memory) :
    State.Sound { state with vfs := state.vfs.store node changed, memory } := by
  refine sound.tree (sound.root.store ?_ ?_ ?_) (fun _ live => live.store) memory
  · exact Vfs.Live.ne_null ⟨found, live⟩ sound.root.null
  · rw [child]
    exact sound.root.child node found live
  · rw [sibling]
    exact sound.root.next node found live

theorem grown (sound : state.Sound) {krealloc : Krealloc} {newSize : U64}
    (grown : VfsGrown krealloc state.vfs state.memory node newSize next) (memory : Memory) :
    State.Sound { state with vfs := next, memory } := by
  obtain ⟨found, live, -, -, rfl⟩ := grown.stored
  refine sound.refill live ?_ ?_ memory <;> rfl

theorem fill (sound : state.Sound) {krealloc : Krealloc} {offset size returned : U32}
    {buffer : U64} {memory : Memory}
    (result : vfsWrite krealloc state.vfs state.memory node offset size buffer =
      some (returned, next, memory)) : State.Sound { state with vfs := next, memory } := by
  rcases vfsWrite_cases result with rfl | grown
  · exact sound.tree sound.root (fun _ live => live) memory
  · exact sound.grown grown memory

theorem write (sound : state.Sound) {krealloc : Krealloc} {file : Option File}
    {buffer size : U64} {returned : U32} {memory : Memory}
    (result : Hvfs.write krealloc state.vfs state.memory file buffer size =
      some (returned, next, memory)) : State.Sound { state with vfs := next, memory } := by
  rcases write_cases result with ⟨rfl, -⟩ | ⟨handle, count, -, -, written⟩
  · exact sound.tree sound.root (fun _ live => live) memory
  · exact sound.fill written

theorem chmod (sound : state.Sound) {file : Option File} {permissions returned : U32}
    (result : Hvfs.chmod state.vfs file permissions = some (returned, next)) :
    State.Sound { state with vfs := next } := by
  rcases chmod_cases result with rfl | ⟨node, vnode, live, rfl⟩
  · exact sound
  · refine sound.refill live ?_ ?_ state.memory <;> rfl

theorem create (sound : state.Sound) {name : Option (List U8)} {type : VnodeType} {perms : U32}
    (allowed : (VfsCall.create parent name type perms).Allowed state.vfs)
    (result : (VfsCall.create parent name type perms).apply state.vfs = some next) :
    State.Sound { state with vfs := next } := by
  obtain ⟨⟨error, made, found⟩, created, rfl⟩ := Option.map_eq_some_iff.mp result
  obtain ⟨root, live⟩ := sound.root.create allowed.2 created
  exact sound.tree root live state.memory

/-- A removal keeps the handles if none of them refers to the removed node. -/
theorem remove (sound : state.Sound)
    (result : (VfsCall.remove parent node).apply state.vfs = some next)
    (spares : (Call.tree (.remove parent node)).SparesOpen state) :
    State.Sound { state with vfs := next } := by
  obtain ⟨⟨error, found⟩, removed, rfl⟩ := Option.map_eq_some_iff.mp result
  rcases vfsRemove_cases removed with ⟨-, child, gone⟩ | ⟨-, -, rfl⟩
  · obtain ⟨root, -, live⟩ := sound.root.removed child gone
    refine ⟨root, ?_⟩
    intro fd file isOpen
    exact live _ (spares child fd file isOpen) (sound.handles fd file isOpen)
  · exact sound

theorem close (sound : state.Sound) (file : U64) : (Hvfs.close state file).2.Sound := by
  unfold Hvfs.close
  split_ifs with null
  · exact sound
  · refine ⟨sound.root, ?_⟩
    intro fd handle isOpen
    dsimp only at isOpen
    by_cases here : fd = file
    · rw [here, Function.update_self] at isOpen
      cases isOpen
    · rw [Function.update_of_ne here] at isOpen
      exact sound.handles fd handle isOpen

theorem step (sound : state.Sound) (step : SparingStep state call after) : after.Sound := by
  obtain ⟨⟨allowed, applied⟩, spares⟩ := step
  cases call with
  | openFile last path mode =>
      obtain ⟨⟨fd, found⟩, result, rfl⟩ := Option.map_eq_some_iff.mp applied
      exact sound.openFile result
  | read file buffer size =>
      obtain ⟨⟨returned, memory⟩, -, rfl⟩ := Option.map_eq_some_iff.mp applied
      exact sound.tree sound.root (fun _ live => live) memory
  | write krealloc file buffer size =>
      obtain ⟨⟨returned, vfs, memory⟩, result, rfl⟩ := Option.map_eq_some_iff.mp applied
      exact sound.write result
  | chmod file permissions =>
      obtain ⟨⟨returned, vfs⟩, result, rfl⟩ := Option.map_eq_some_iff.mp applied
      exact sound.chmod result
  | close file =>
      cases applied
      exact sound.close file
  | tree call =>
      obtain ⟨vfs, result, rfl⟩ := Option.map_eq_some_iff.mp applied
      cases call with
      | create parent name type perms => exact sound.create allowed result
      | remove parent node => exact sound.remove result spares
  | fill krealloc node offset size buffer =>
      obtain ⟨⟨returned, vfs, memory⟩, result, rfl⟩ := Option.map_eq_some_iff.mp applied
      exact sound.fill result

theorem run {start : State} {calls : List Call} (sound : start.Sound)
    (run : Run SparingStep start calls after) : after.Sound :=
  run.invariant State.Sound sound fun _ _ _ sound step => sound.step step

end State.Sound

/-! Calls through a handle -/

theorem permissionCheck_returns (live : vfs.Live node) (uid perms : U32) :
    ∃ permitted, permissionCheck vfs node uid perms = some permitted := by
  obtain ⟨vnode, live⟩ := live
  unfold permissionCheck
  rw [live, Option.bind_eq_bind, Option.bind_some]
  split_ifs <;> exact ⟨_, rfl⟩

theorem read_returns {file : Option File}
    (live : ∀ handle, file = some handle → vfs.Live handle.vnode) (memory : Memory)
    (buffer size : U64) : ∃ result, Hvfs.read vfs memory file buffer size = some result := by
  cases file with
  | none => exact ⟨_, rfl⟩
  | some handle =>
      have handleLive := live handle rfl
      obtain ⟨permitted, checked⟩ :=
        permissionCheck_returns handleLive handle.uid vnodePermsOwnerRead
      obtain ⟨vnode, vnodeLive⟩ := handleLive
      simp only [Hvfs.read, vnodeLive, checked, Option.bind_eq_bind, Option.bind_some]
      split_ifs <;> exact ⟨_, rfl⟩

theorem vfsWrite_returns (live : vfs.Live node) (krealloc : Krealloc) (memory : Memory)
    (offset size : U32) (buffer : U64) :
    ∃ result, vfsWrite krealloc vfs memory node offset size buffer = some result := by
  obtain ⟨vnode, live⟩ := live
  simp only [vfsWrite, live, Option.bind_eq_bind, Option.bind_some]
  split_ifs <;> exact ⟨_, rfl⟩

theorem write_returns {file : Option File}
    (live : ∀ handle, file = some handle → vfs.Live handle.vnode) (krealloc : Krealloc)
    (memory : Memory) (buffer size : U64) :
    ∃ result, Hvfs.write krealloc vfs memory file buffer size = some result := by
  cases file with
  | none => exact ⟨_, rfl⟩
  | some handle =>
      have handleLive := live handle rfl
      obtain ⟨permitted, checked⟩ :=
        permissionCheck_returns handleLive handle.uid vnodePermsOwnerWrite
      obtain ⟨result, written⟩ :=
        vfsWrite_returns handleLive krealloc memory 0#32 (size.setWidth 32) buffer
      obtain ⟨vnode, vnodeLive⟩ := handleLive
      simp only [Hvfs.write, vnodeLive, checked, written, Option.bind_eq_bind, Option.bind_some]
      split_ifs <;> exact ⟨_, rfl⟩

theorem chmod_returns {file : Option File}
    (live : ∀ handle, file = some handle → vfs.Live handle.vnode) (permissions : U32) :
    ∃ result, Hvfs.chmod vfs file permissions = some result := by
  cases file with
  | none => exact ⟨_, rfl⟩
  | some handle =>
      obtain ⟨vnode, vnodeLive⟩ := live handle rfl
      simp only [Hvfs.chmod, vfsChmod, vnodeLive, Option.bind_eq_bind, Option.bind_some]
      split_ifs <;> exact ⟨_, rfl⟩

/-- What a call through a handle dereferences is there. -/
theorem State.HandlesLive.returns (live : state.HandlesLive) (uses : call.UsesHandle) :
    ∃ next, call.apply state = some next := by
  cases call with
  | read file buffer size =>
      obtain ⟨result, returned⟩ := read_returns (live file) state.memory buffer size
      exact ⟨_, by rw [Call.apply, returned, Option.map_some]⟩
  | write krealloc file buffer size =>
      obtain ⟨result, returned⟩ := write_returns (live file) krealloc state.memory buffer size
      exact ⟨_, by rw [Call.apply, returned, Option.map_some]⟩
  | chmod file permissions =>
      obtain ⟨result, returned⟩ := chmod_returns (live file) permissions
      exact ⟨_, by rw [Call.apply, returned, Option.map_some]⟩
  | openFile last path mode => cases uses
  | close file => cases uses
  | tree call => cases uses
  | fill krealloc node offset size buffer => cases uses

/-- A removal of an open node leaves its handle without a vnode. -/
theorem State.Sound.dangles (sound : state.Sound) (step : Step state call after)
    (taken : ¬call.SparesOpen state) : ¬after.HandlesLive := by
  obtain ⟨allowed, applied⟩ := step
  cases call with
  | tree call =>
      cases call with
      | remove parent node =>
          obtain ⟨vfs, result, rfl⟩ := Option.map_eq_some_iff.mp applied
          obtain ⟨⟨error, found⟩, removed, rfl⟩ := Option.map_eq_some_iff.mp result
          have taken : ∃ fd file, state.vfs.IsChild parent node ∧ state.files fd = some file ∧
              file.vnode = node := by
            by_contra none
            refine taken fun child fd file isOpen same => none ⟨fd, file, child, isOpen, same⟩
          obtain ⟨fd, file, child, isOpen, rfl⟩ := taken
          rcases vfsRemove_cases removed with ⟨-, -, gone⟩ | ⟨-, absent, -⟩
          · obtain ⟨-, dead, -⟩ := sound.root.removed child gone
            intro handles
            obtain ⟨vnode, live⟩ := handles fd file isOpen
            dsimp only at live
            rw [dead] at live
            cases live
          · obtain ⟨vnode, live⟩ := allowed.2
            refine (absent ?_ sound.root.null child).elim
            rw [live]
            exact Option.some_ne_none vnode
      | create parent name type perms => exact (taken trivial).elim
  | openFile last path mode => exact (taken trivial).elim
  | read file buffer size => exact (taken trivial).elim
  | write krealloc file buffer size => exact (taken trivial).elim
  | chmod file permissions => exact (taken trivial).elim
  | close file => exact (taken trivial).elim
  | fill krealloc node offset size buffer => exact (taken trivial).elim

/-- In every run whose removals take no open node, each handle leads to a live vnode, so
that every call through a handle returns.  A removal that takes an open node ends
that. -/
theorem handles_stay_live {memory : Memory} {calls : List Call} {final : State}
    (kept : RootKept vfs) (run : Run SparingStep (State.unopened vfs memory) calls final) :
    final.HandlesLive ∧
      (∀ call : Call, call.UsesHandle → ∃ next, call.apply final = some next) ∧
      ∀ call next, Step final call next → ¬call.SparesOpen final → ¬next.HandlesLive := by
  have unopened : (State.unopened vfs memory).Sound := ⟨kept, fun fd file isOpen => by cases isOpen⟩
  have sound := unopened.run run
  exact ⟨sound.handles, fun call uses => sound.handles.returns uses,
    fun call next step taken => sound.dangles step taken⟩

/-! A file that is opened and removed -/

/-- The tree after `vfs_init`, with blocks to come. -/
def sampleTree : Vfs := (vfsInit (Vfs.boot sampleSupply)).2

def sampleCreate : Call := .tree (.create 0x10#64 (some [charLowerA]) .file rootPermissions)

def sampleOpen : Call := .openFile 0#64 (some [charSlash, charLowerA]) readOnly

def sampleRemove : Call := .tree (.remove 0x10#64 0x30#64)

def sampleState : State := State.unopened sampleTree fun _ => 0#8

def sampleCreated : State := (sampleCreate.apply sampleState).getD sampleState

def sampleOpened : State := (sampleOpen.apply sampleCreated).getD sampleCreated

theorem sampleOpened_run : Run SparingStep sampleState [sampleCreate, sampleOpen] sampleOpened := by
  have created : SparingStep sampleState sampleCreate sampleCreated := by
    refine ⟨⟨⟨⟨_, rfl⟩, ?_⟩, rfl⟩, trivial⟩
    intro block isHead
    cases isHead
    rfl
  have opened : SparingStep sampleCreated sampleOpen sampleOpened := ⟨⟨trivial, rfl⟩, trivial⟩
  exact (Run.single created).snoc opened

theorem sampleOpened_file : sampleOpened.files 0x50#64 = some ⟨0#32, 0x30#64, readOnly⟩ := rfl

theorem handles_stay_live_opened : sampleOpened.HandlesLive :=
  (handles_stay_live (vfsInit_rootKept rfl) sampleOpened_run).1

/-- Removing an open file frees the vnode its handle refers to. -/
theorem removal_leaves_handle : ¬∀ (vfs : Vfs) (memory : Memory) (calls : List Call)
    (final : State), RootKept vfs → Run Step (State.unopened vfs memory) calls final →
    final.HandlesLive := by
  intro always
  have removed : ∃ next, Step sampleOpened sampleRemove next ∧ next.vfs.vnodes 0x30#64 = none ∧
      next.files = sampleOpened.files := ⟨_, ⟨⟨⟨_, rfl⟩, ⟨_, rfl⟩⟩, rfl⟩, rfl, rfl⟩
  obtain ⟨next, step, dead, files⟩ := removed
  have steps := sampleOpened_run.mono fun _ _ _ step => step.1
  obtain ⟨vnode, live⟩ := always _ _ _ next (vfsInit_rootKept rfl) (steps.snoc step) 0x50#64 _
    (by rw [files, sampleOpened_file])
  rw [dead] at live
  cases live

end Hvfs

end Nekonix
