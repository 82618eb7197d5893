import Nekonix.Dev.Vfs.HeapCalls
import Nekonix.Dev.Hvfs.Handles

/-!
# The heap calls of `dev/hvfs.c`

The calls of the heap that each operation on handles makes, and that they concern
nothing but the handle's own block and what the operations of `dev/vfs.c` give back.
-/

namespace Nekonix

open HeapLedger

namespace Hvfs

def lookupCalls (vfs : Vfs) (path : Option (List U8)) : List HeapCall :=
  (path.map (vfsLookupCalls vfs)).getD []

def openCalls (state : State) (last : U64) (path : Option (List U8)) (mode : U32) :
    List HeapCall :=
  let (fd, vfs) := state.vfs.kmalloc
  if fd = 0#64 then
    [.alloc 0#64]
  else if mode &&& create ≠ 0#32 then
    [.alloc fd]
  else
    match lookup vfs last path with
    | none => []
    | some (node, _) =>
        if node = 0#64 then
          .alloc fd :: lookupCalls vfs path ++ [.free fd]
        else
          .alloc fd :: lookupCalls vfs path

def writeCalls (krealloc : Krealloc) (vfs : Vfs) (memory : Memory) (file : Option File)
    (buffer size : U64) : List HeapCall :=
  match file with
  | none => []
  | some file =>
      if file.mode ≠ writeOnly ∧ file.mode ≠ readWrite then
        []
      else
        match vfs.vnodes file.vnode with
        | none => []
        | some vnode =>
            if vnode.type ≠ .file then
              []
            else if permissionCheck vfs file.vnode file.uid vnodePermsOwnerWrite = some true then
              vfsWriteCalls krealloc vfs memory file.vnode 0#32 (size.setWidth 32) buffer
            else
              []

def closeCalls (file : U64) : List HeapCall := if file = 0#64 then [] else [.free file]

def Call.heapCalls (state : State) : Call → List HeapCall
  | .openFile last path mode => openCalls state last path mode
  | .read _ _ _ => []
  | .write krealloc file buffer size =>
      writeCalls krealloc state.vfs state.memory (state.files file) buffer size
  | .chmod _ _ => []
  | .close file => closeCalls file
  | .tree (.create parent name _ _) => vfsCreateCalls state.vfs parent name
  | .tree (.remove parent node) => vfsRemoveCalls state.vfs parent node
  | .fill krealloc node offset size buffer =>
      vfsWriteCalls krealloc state.vfs state.memory node offset size buffer

variable (archive : U64 → Prop) [DecidablePred archive]

/-- The call makes a file grow whose data lie in the archive. -/
def Call.GrowsArchive (state : State) : Call → Prop
  | .write _ file buffer size => ∃ handle, state.files file = some handle ∧
      handle.Writes state.vfs ∧
      Nekonix.GrowsArchive archive state.vfs handle.vnode 0#32 (size.setWidth 32) buffer
  | .fill _ node offset size buffer =>
      Nekonix.GrowsArchive archive state.vfs node offset size buffer
  | _ => False

/-- The block that each owner holds. -/
abbrev State.held (state : State) : HeapOwner → U64 :=
  heldBlock archive state.vfs.vnodes state.files

variable {archive} {state after : State} {call : Call} {vfs next : Vfs} {memory memory' : Memory}

theorem held_open (vnodes : U64 → Option Vnode) (files : U64 → Option File) (fd : U64)
    (file : File) :
    heldBlock archive vnodes (Function.update files fd (some file)) =
      Function.update (heldBlock archive vnodes files) (.file fd) fd := by
  funext owner
  cases owner with
  | file other => by_cases here : other = fd <;> simp [heldBlock, here]
  | node other => simp [heldBlock]
  | name other => simp [heldBlock]
  | data other => simp [heldBlock]

theorem held_close (vnodes : U64 → Option Vnode) (files : U64 → Option File) (fd : U64) :
    heldBlock archive vnodes (Function.update files fd none) =
      Function.update (heldBlock archive vnodes files) (.file fd) 0#64 := by
  funext owner
  cases owner with
  | file other => by_cases here : other = fd <;> simp [heldBlock, here]
  | node other => simp [heldBlock]
  | name other => simp [heldBlock]
  | data other => simp [heldBlock]

/-- A handle's block is held by the handle, if at all. -/
theorem held_file (vnodes : U64 → Option Vnode) (files : U64 → Option File) (fd : U64) :
    heldBlock archive vnodes files (.file fd) = fd ∨
      heldBlock archive vnodes files (.file fd) = 0#64 := by
  unfold heldBlock
  dsimp only
  split_ifs
  · exact Or.inl rfl
  · exact Or.inr rfl

theorem lookup_serves (vfs : Vfs) (path : Option (List U8)) (excluded : U64 → Prop)
    (held : HeapOwner → U64) :
    Serves 0#64 excluded held (lookupCalls vfs path) held := by
  cases path with
  | none => exact .refl
  | some path => exact vfsLookup_serves

theorem lookup_blocks {path : Option (List U8)} {excluded : U64 → Prop} {live : Set U64}
    (honest : Honest 0#64 excluded live (lookupCalls vfs path)) :
    blocks 0#64 live (lookupCalls vfs path) = live := by
  cases path with
  | none => rfl
  | some path => exact vfsLookup_blocks honest

theorem openCalls_absent {last : U64} {path : Option (List U8)} {mode : U32} {found : Vfs}
    (nonnull : state.vfs.supply.head?.getD 0#64 ≠ 0#64) (reads : mode &&& create = 0#32)
    (looked : lookup { state.vfs with supply := state.vfs.supply.tail } last path =
      some (0#64, found)) :
    openCalls state last path mode =
      [.alloc (state.vfs.supply.head?.getD 0#64)] ++
        lookupCalls { state.vfs with supply := state.vfs.supply.tail } path ++
        [.free (state.vfs.supply.head?.getD 0#64)] := by
  simp [openCalls, kmalloc_fst, kmalloc_snd, nonnull, reads, looked]

theorem Opened.calls {last fd : U64} {path : Option (List U8)} {mode : U32}
    (opened : Opened state last path mode fd after) :
    openCalls state last path mode =
      [.alloc fd] ++ lookupCalls { state.vfs with supply := state.vfs.supply.tail } path := by
  obtain ⟨node, found, nodeNonnull, looked, -⟩ := opened.found
  have nonnull := opened.nonnull
  rw [opened.block] at nonnull ⊢
  simp [openCalls, kmalloc_fst, kmalloc_snd, nonnull, opened.notCreating, looked, nodeNonnull]

theorem openFile_serves {last fd : U64} {path : Option (List U8)} {mode : U32}
    (result : openFile state last path mode = some (fd, after)) :
    Serves 0#64 archive (state.held archive) (openCalls state last path mode)
      (after.held archive) := by
  rcases openFile_cases result with ⟨-, notOpened⟩ | opened
  · cases notOpened with
    | unallocated failed =>
        have calls : openCalls state last path mode = [.alloc 0#64] := by
          simp [openCalls, kmalloc_fst, failed]
        rw [calls]
        exact .alloc_failed
    | creating nonnull creates =>
        have calls : openCalls state last path mode =
            [.alloc (state.vfs.supply.head?.getD 0#64)] := by
          simp [openCalls, kmalloc_fst, nonnull, creates]
        rw [calls]
        generalize state.vfs.supply.head?.getD 0#64 = block
        refine (Serves.alloc (HeapOwner.file block) block).fewer fun owner => ?_
        by_cases here : owner = .file block
        · rw [here, Function.update_self]
          exact held_file _ _ _
        · rw [Function.update_of_ne here]
          exact Or.inl rfl
    | @absent found nonnull reads looked =>
        have same : found.vnodes = state.vfs.vnodes := (lookup_unchanged looked).1
        rw [openCalls_absent nonnull reads looked]
        dsimp only [State.held]
        rw [same]
        generalize state.vfs.supply.head?.getD 0#64 = block
        have served := ((Serves.alloc (HeapOwner.file block) block).trans
          (lookup_serves { state.vfs with supply := state.vfs.supply.tail } path archive _)).trans
          (Serves.free (Function.update_self (HeapOwner.file block) block
            (heldBlock archive state.vfs.vnodes state.files)))
        rw [Function.update_idem] at served
        exact served.restore (held_file _ _ _)
  · have calls := opened.calls
    obtain ⟨node, found, nodeNonnull, looked, rfl⟩ := opened.found
    have same : found.vnodes = state.vfs.vnodes := (lookup_unchanged looked).1
    rw [calls]
    dsimp only [State.held]
    rw [held_open, same]
    exact (Serves.alloc (HeapOwner.file fd) fd).trans (lookup_serves _ _ _ _)

theorem writeCalls_writes {krealloc : Krealloc} {handle : File} {buffer size : U64}
    (writes : handle.Writes vfs) :
    writeCalls krealloc vfs memory (some handle) buffer size =
      vfsWriteCalls krealloc vfs memory handle.vnode 0#32 (size.setWidth 32) buffer := by
  obtain ⟨mode, ⟨vnode, live, isFile⟩, permitted⟩ := writes
  have writable : ¬(handle.mode ≠ writeOnly ∧ handle.mode ≠ readWrite) := by
    rintro ⟨notWrite, notBoth⟩
    exact mode.elim notWrite notBoth
  simp only [writeCalls, if_neg writable, live, isFile, permitted, ne_eq, not_true_eq_false,
    if_false, if_true]

theorem writeCalls_refused {krealloc : Krealloc} {file : Option File} {buffer size : U64}
    (refused : ∀ handle, file = some handle → ¬handle.Writes vfs) :
    writeCalls krealloc vfs memory file buffer size = [] := by
  cases file with
  | none => rfl
  | some handle =>
      have notWrites := refused handle rfl
      unfold writeCalls
      dsimp only
      split_ifs with unwritable permitted
      · rfl
      · cases live : vfs.vnodes handle.vnode with
        | none => rfl
        | some vnode =>
            dsimp only
            split_ifs with directory
            · rfl
            · refine (notWrites ⟨?_, ⟨vnode, live, not_not.mp directory⟩, permitted⟩).elim
              by_contra neither
              exact unwritable (not_or.mp neither)
      · cases vfs.vnodes handle.vnode with
        | none => rfl
        | some vnode => exact ite_self _

theorem write_serves {krealloc : Krealloc} {file : Option File} {files : U64 → Option File}
    {buffer size : U64} {returned : U32}
    (spares : ∀ handle, file = some handle → handle.Writes vfs →
      ¬Nekonix.GrowsArchive archive vfs handle.vnode 0#32 (size.setWidth 32) buffer)
    (result : Hvfs.write krealloc vfs memory file buffer size = some (returned, next, memory')) :
    Serves 0#64 archive (heldBlock archive vfs.vnodes files)
      (writeCalls krealloc vfs memory file buffer size) (heldBlock archive next.vnodes files) := by
  rcases write_cases result with ⟨rfl, refused⟩ | ⟨handle, count, rfl, writes, written⟩
  · rw [writeCalls_refused refused]
    exact .refl
  · rw [writeCalls_writes writes]
    exact vfsWrite_serves (spares handle rfl writes) written

theorem chmod_serves {file : Option File} {files : U64 → Option File} {permissions returned : U32}
    (result : chmod vfs file permissions = some (returned, next)) :
    heldBlock archive next.vnodes files = heldBlock archive vfs.vnodes files := by
  rcases chmod_cases result with rfl | ⟨node, vnode, live, rfl⟩
  · rfl
  · exact heldBlock_relink live rfl rfl

theorem close_serves (file : U64) (valid : state.Valid file) :
    Serves 0#64 archive (state.held archive) (closeCalls file)
      ((close state file).2.held archive) := by
  unfold closeCalls close
  split_ifs with null
  · exact .refl
  · obtain ⟨handle, isOpen⟩ := valid.resolve_left null
    have held : state.held archive (.file file) = file := by
      simp [heldBlock, isOpen]
    dsimp only [State.held]
    rw [held_close]
    exact .free held

/-- Every call that returns and grows nothing in the archive gives back what is its own. -/
theorem Call.serves (allowed : call.Allowed state) (applied : call.apply state = some after)
    (spares : ¬call.GrowsArchive archive state) :
    Serves 0#64 archive (state.held archive) (call.heapCalls state) (after.held archive) := by
  cases call with
  | openFile last path mode =>
      obtain ⟨⟨fd, found⟩, result, rfl⟩ := Option.map_eq_some_iff.mp applied
      exact openFile_serves result
  | read file buffer size =>
      obtain ⟨⟨returned, memory⟩, -, rfl⟩ := Option.map_eq_some_iff.mp applied
      exact .refl
  | write krealloc file buffer size =>
      obtain ⟨⟨returned, vfs, memory⟩, result, rfl⟩ := Option.map_eq_some_iff.mp applied
      refine write_serves (fun handle isOpen writes grows => ?_) result
      exact spares ⟨handle, isOpen, writes, grows⟩
  | chmod file permissions =>
      obtain ⟨⟨returned, vfs⟩, result, rfl⟩ := Option.map_eq_some_iff.mp applied
      dsimp only [State.held]
      rw [chmod_serves result]
      exact .refl
  | close file =>
      cases applied
      exact close_serves file allowed
  | tree call =>
      obtain ⟨vfs, result, rfl⟩ := Option.map_eq_some_iff.mp applied
      cases call with
      | create parent name type perms =>
          obtain ⟨⟨error, made, found⟩, created, rfl⟩ := Option.map_eq_some_iff.mp result
          exact vfsCreate_serves created
      | remove parent node =>
          obtain ⟨⟨error, found⟩, removed, rfl⟩ := Option.map_eq_some_iff.mp result
          exact vfsRemove_serves removed
  | fill krealloc node offset size buffer =>
      obtain ⟨⟨returned, vfs, memory⟩, result, rfl⟩ := Option.map_eq_some_iff.mp applied
      exact vfsWrite_serves spares result

end Hvfs

end Nekonix
