import Nekonix.Library.HeapLedger
import Nekonix.Dev.Vfs.Effects

/-!
# The heap calls of `dev/vfs.c`

The calls of `kmalloc`, `krealloc` and `kfree` that each operation makes, in their
order, and who holds the blocks: a vnode its own block, that of its name, and that of
its data, unless the data lie in the mounted archive.
-/

namespace Nekonix

open HeapLedger

abbrev HeapCall := HeapLedger.Call U64

/-! The calls -/

def vfsInitCalls (vfs : Vfs) : List HeapCall :=
  let (node, vfs) := vfs.kmalloc
  if node = 0#64 then
    [.alloc 0#64]
  else
    let (copy, _) := vfs.kmalloc
    [.alloc node, .alloc copy]

def vfsCreateCalls (vfs : Vfs) (parent : U64) (name : Option (List U8)) : List HeapCall :=
  match name with
  | none => []
  | some _ =>
      if parent = 0#64 then
        []
      else
        let (node, vfs) := vfs.kmalloc
        if node = 0#64 then
          [.alloc 0#64]
        else
          let (copy, _) := vfs.kmalloc
          if copy = 0#64 then
            [.alloc node, .alloc 0#64, .free node]
          else
            [.alloc node, .alloc copy]

def vfsRemoveCalls (vfs : Vfs) (parent node : U64) : List HeapCall :=
  match vfsRemove vfs parent node, vfs.vnodes node with
  | some (error, _), some curr =>
      if error = 0#32 then [.free curr.name.block, .free node] else []
  | _, _ => []

def vfsWriteCalls (krealloc : Krealloc) (vfs : Vfs) (memory : Memory) (node : U64)
    (offset size : U32) (buffer : U64) : List HeapCall :=
  if node = 0#64 ∨ buffer = 0#64 then
    []
  else
    match vfs.vnodes node with
    | none => []
    | some vnode =>
        let newSize := (offset + size).setWidth 64
        if newSize > vnode.size then
          [.realloc vnode.data (krealloc memory vnode.data newSize).1]
        else
          []

def vfsLookupCalls (vfs : Vfs) (path : List U8) : List HeapCall :=
  if vfs.root = 0#64 then
    []
  else if strcmp path [charSlash] = 0 then
    []
  else
    let (pathCopy, _) := vfs.kmalloc
    if pathCopy = 0#64 then [.alloc 0#64] else [.alloc pathCopy, .free pathCopy]

/-! The owners -/

inductive HeapOwner where
  | node (node : U64)
  | name (node : U64)
  | data (node : U64)
  | file (fd : U64)
deriving DecidableEq

variable {File : Type} (archive : U64 → Prop) [DecidablePred archive]

/-- The block that each owner holds; the data in the `archive` are no block. -/
def heldBlock (vnodes : U64 → Option Vnode) (files : U64 → Option File) : HeapOwner → U64
  | .node node => if (vnodes node).isSome then node else 0#64
  | .name node => ((vnodes node).map fun vnode => vnode.name.block).getD 0#64
  | .data node =>
      ((vnodes node).map fun vnode => if archive vnode.data then 0#64 else vnode.data).getD 0#64
  | .file fd => if (files fd).isSome then fd else 0#64

/-- A write that makes a file grow whose data lie in the archive. -/
def GrowsArchive (vfs : Vfs) (node : U64) (offset size : U32) (buffer : U64) : Prop :=
  node ≠ 0#64 ∧ buffer ≠ 0#64 ∧ ∃ vnode, vfs.vnodes node = some vnode ∧
    vnode.size < (offset + size).setWidth 64 ∧ archive vnode.data ∧ vnode.data ≠ 0#64

variable {archive} {vfs next : Vfs} {files : U64 → Option File} {parent node made : U64}
  {vnode found changed : Vnode} {name : Option (List U8)} {type : VnodeType} {perms error : U32}

theorem heldBlock_store (vfs : Vfs) (node : U64) (vnode : Vnode) :
    heldBlock archive (vfs.store node vnode).vnodes files =
      Function.update (Function.update (Function.update (heldBlock archive vfs.vnodes files)
        (.node node) node) (.name node) vnode.name.block) (.data node)
        (if archive vnode.data then 0#64 else vnode.data) := by
  funext owner
  cases owner with
  | file fd => simp [heldBlock]
  | node other =>
      by_cases here : other = node
      · simp [heldBlock, here]
      · simp [heldBlock, here, Vfs.store_other here]
  | name other =>
      by_cases here : other = node
      · simp [heldBlock, here]
      · simp [heldBlock, here, Vfs.store_other here]
  | data other =>
      by_cases here : other = node
      · simp [heldBlock, here]
      · simp [heldBlock, here, Vfs.store_other here]

theorem heldBlock_kfree (vfs : Vfs) (node : U64) :
    heldBlock archive (vfs.kfree node).vnodes files =
      Function.update (Function.update (Function.update (heldBlock archive vfs.vnodes files)
        (.name node) 0#64) (.node node) 0#64) (.data node) 0#64 := by
  funext owner
  cases owner with
  | file fd => simp [heldBlock]
  | node other =>
      by_cases here : other = node
      · simp [heldBlock, here]
      · simp [heldBlock, here, Vfs.kfree_other here]
  | name other =>
      by_cases here : other = node
      · simp [heldBlock, here]
      · simp [heldBlock, here, Vfs.kfree_other here]
  | data other =>
      by_cases here : other = node
      · simp [heldBlock, here]
      · simp [heldBlock, here, Vfs.kfree_other here]

/-- Filling in a live vnode without another name. -/
theorem heldBlock_refill (live : vfs.vnodes node = some found) (name : changed.name = found.name) :
    heldBlock archive (vfs.store node changed).vnodes files =
      Function.update (heldBlock archive vfs.vnodes files) (.data node)
        (if archive changed.data then 0#64 else changed.data) := by
  have block : Function.update (heldBlock archive vfs.vnodes files) (.node node) node =
      heldBlock archive vfs.vnodes files := by
    rw [Function.update_eq_self_iff]
    simp [heldBlock, live]
  have text : Function.update (heldBlock archive vfs.vnodes files) (.name node)
      changed.name.block = heldBlock archive vfs.vnodes files := by
    rw [Function.update_eq_self_iff]
    simp [heldBlock, live, name]
  rw [heldBlock_store, block, text]

/-- Filling in a live vnode without another name or other data. -/
theorem heldBlock_relink (live : vfs.vnodes node = some found) (name : changed.name = found.name)
    (data : changed.data = found.data) :
    heldBlock archive (vfs.store node changed).vnodes files =
      heldBlock archive vfs.vnodes files := by
  rw [heldBlock_refill live name, Function.update_eq_self_iff]
  simp [heldBlock, live, data]

theorem Vnode.Relinked.name_eq {target : U64} (relinked : found.Relinked changed target) :
    changed.name = found.name := by
  rcases relinked with rfl | rfl <;> rfl

theorem Vnode.Relinked.data_eq {target : U64} (relinked : found.Relinked changed target) :
    changed.data = found.data := by
  rcases relinked with rfl | rfl <;> rfl

/-! Each operation gives back what is its own -/

/-- A new vnode in a block of its own, with its name in another. -/
theorem fill_serves (vfs : Vfs) (block : U64) (vnode : Vnode) (noData : vnode.data = 0#64) :
    Serves 0#64 archive (heldBlock archive vfs.vnodes files)
      [.alloc block, .alloc vnode.name.block]
      (heldBlock archive (vfs.store block vnode).vnodes files) := by
  rw [heldBlock_store, noData, ite_self]
  exact ((Serves.alloc (HeapOwner.node block) block).trans
    (Serves.alloc (HeapOwner.name block) vnode.name.block)).forget _

theorem vfsInit_serves (vfs : Vfs) :
    Serves 0#64 archive (heldBlock archive vfs.vnodes files) (vfsInitCalls vfs)
      (heldBlock archive (vfsInit vfs).2.vnodes files) := by
  unfold vfsInit vfsInitCalls
  simp only [kmalloc_fst, kmalloc_snd]
  generalize vfs.supply.head?.getD 0#64 = block
  generalize vfs.supply.tail.head?.getD 0#64 = copy
  split_ifs with failed
  · exact .alloc_failed
  · exact fill_serves vfs block (rootVnode ⟨copy, rootName⟩) rfl

theorem vfsCreate_serves
    (result : vfsCreate vfs parent name type perms = some (error, made, next)) :
    Serves 0#64 archive (heldBlock archive vfs.vnodes files) (vfsCreateCalls vfs parent name)
      (heldBlock archive next.vnodes files) := by
  rcases vfsCreate_cases result with ⟨-, created⟩ | ⟨-, refused | ⟨block, unnamed⟩⟩
  · obtain ⟨copy, supply, holder, found, changed, supplied, copyNonnull, live, relinked, vnodes, -⟩ :=
      created.linked
    obtain ⟨text, rfl⟩ := Option.ne_none_iff_exists'.mp created.named
    have calls : vfsCreateCalls vfs parent (some text) = [.alloc made, .alloc copy.block] := by
      simp [vfsCreateCalls, created.parentNonnull, Vfs.kmalloc, supplied, created.nonnull,
        copyNonnull]
    rw [calls, vnodes, heldBlock_relink live relinked.name_eq relinked.data_eq]
    exact fill_serves vfs made (newVnode parent copy type perms) rfl
  · rw [refused.vnodes]
    have calls : vfsCreateCalls vfs parent name = [] ∨
        vfsCreateCalls vfs parent name = [.alloc 0#64] := by
      cases name with
      | none => exact Or.inl rfl
      | some text =>
          by_cases parentNull : parent = 0#64
          · exact Or.inl (by simp [vfsCreateCalls, parentNull])
          · have noBlock := (refused.reason.resolve_left (Option.some_ne_none _)).resolve_left
              parentNull
            exact Or.inr (by simp [vfsCreateCalls, parentNull, kmalloc_fst, noBlock])
    rcases calls with none | failed
    · rw [none]
      exact .refl
    · rw [failed]
      exact .alloc_failed
  · obtain ⟨supply, supplied, noCopy, -⟩ := unnamed.supply
    obtain ⟨text, rfl⟩ := Option.ne_none_iff_exists'.mp unnamed.named
    have calls : vfsCreateCalls vfs parent (some text) =
        [.alloc block] ++ [.alloc 0#64] ++ [.free block] := by
      cases supply with
      | nil => simp [vfsCreateCalls, unnamed.parentNonnull, Vfs.kmalloc, supplied, unnamed.nonnull]
      | cons copy supply =>
          have copyNull : copy = 0#64 := noCopy
          simp [vfsCreateCalls, unnamed.parentNonnull, Vfs.kmalloc, supplied, unnamed.nonnull,
            copyNull]
    have served : Serves 0#64 archive (heldBlock archive vfs.vnodes files)
        ([.alloc block] ++ [.alloc 0#64] ++ [.free block])
        (Function.update (Function.update (heldBlock archive vfs.vnodes files)
          (HeapOwner.node block) block) (.node block) 0#64) :=
      ((Serves.alloc (HeapOwner.node block) block).trans .alloc_failed).trans
        (Serves.free (Function.update_self ..))
    rw [Function.update_idem] at served
    rw [calls, unnamed.vnodes, heldBlock_kfree,
      Function.update_comm (by simp : HeapOwner.name block ≠ .node block)]
    exact (served.forget _).forget _

theorem vfsRemove_serves (result : vfsRemove vfs parent node = some (error, next)) :
    Serves 0#64 archive (heldBlock archive vfs.vnodes files) (vfsRemoveCalls vfs parent node)
      (heldBlock archive next.vnodes files) := by
  rcases vfsRemove_cases result with ⟨rfl, -, removed⟩ | ⟨rfl, -, same⟩
  · obtain ⟨gone, holder, found, changed, live, holderLive, relinked, rfl⟩ := removed.unlinked
    have calls : vfsRemoveCalls vfs parent node = [.free gone.name.block] ++ [.free node] := by
      simp [vfsRemoveCalls, result, live]
    have name : heldBlock archive vfs.vnodes files (.name node) = gone.name.block := by
      simp [heldBlock, live]
    have block : heldBlock archive vfs.vnodes files (.node node) = node := by
      simp [heldBlock, live]
    rw [calls, heldBlock_kfree, heldBlock_relink holderLive relinked.name_eq relinked.data_eq]
    have stillHeld : Function.update (heldBlock archive vfs.vnodes files) (HeapOwner.name node) 0#64
        (.node node) = node := by
      rw [Function.update_of_ne (by simp), block]
    exact ((Serves.free name).trans (Serves.free stillHeld)).forget _
  · have calls : vfsRemoveCalls vfs parent node = [] := by
      unfold vfsRemoveCalls
      rw [result]
      cases vfs.vnodes node <;> rfl
    rw [calls, same]
    exact .refl

/-- A write gives back what is its own if it grows no file that lies in the archive. -/
theorem vfsWrite_serves {krealloc : Krealloc} {memory memory' : Memory} {offset size : U32}
    {buffer : U64} {returned : U32} (spares : ¬GrowsArchive archive vfs node offset size buffer)
    (result : vfsWrite krealloc vfs memory node offset size buffer =
      some (returned, next, memory')) :
    Serves 0#64 archive (heldBlock archive vfs.vnodes files)
      (vfsWriteCalls krealloc vfs memory node offset size buffer)
      (heldBlock archive next.vnodes files) := by
  unfold vfsWrite at result
  unfold vfsWriteCalls
  split_ifs at result ⊢ with null
  · cases result
    exact .refl
  · rw [Option.bind_eq_bind, Option.bind_eq_some_iff] at result
    obtain ⟨vnode, live, result⟩ := result
    rw [live]
    dsimp only at result ⊢
    have held : vnode.size < (offset + size).setWidth 64 →
        heldBlock archive vfs.vnodes files (.data node) = vnode.data := by
      intro grows
      by_cases lent : archive vnode.data
      · have null : vnode.data = 0#64 := by
          by_contra nonnull
          rw [not_or] at null
          exact spares ⟨null.1, null.2, vnode, live, grows, lent, nonnull⟩
        simp [heldBlock, live, null]
      · simp [heldBlock, live, lent]
    split_ifs at result ⊢ with grows failed
    · cases result
      rw [failed]
      exact .realloc_failed (held grows)
    · cases result
      rw [@heldBlock_refill _ archive _ vfs files node vnode { vnode with
        data := (krealloc memory vnode.data ((offset + size).setWidth 64)).1
        size := (offset + size).setWidth 64 } live rfl]
      refine (Serves.realloc (held grows) failed).fewer fun owner => ?_
      by_cases here : owner = .data node
      · rw [here, Function.update_self, Function.update_self]
        split_ifs with lent
        · exact Or.inr rfl
        · exact Or.inl rfl
      · rw [Function.update_of_ne here, Function.update_of_ne here]
        exact Or.inl rfl
    · cases result
      exact .refl

/-- The path that a lookup copies is given back. -/
theorem vfsLookup_blocks {excluded : U64 → Prop} {path : List U8} {live : Set U64}
    (honest : Honest 0#64 excluded live (vfsLookupCalls vfs path)) :
    blocks 0#64 live (vfsLookupCalls vfs path) = live := by
  have enclosed : ∀ block : U64, block ≠ 0#64 →
      Honest 0#64 excluded live ([.alloc block] ++ [] ++ [.free block]) →
        blocks 0#64 live ([.alloc block] ++ [] ++ [.free block]) = live :=
    fun _ nonnull => blocks_enclosed nonnull fun _ _ => rfl
  unfold vfsLookupCalls at honest ⊢
  dsimp only at honest ⊢
  split_ifs at honest ⊢ with unmounted slash failed
  · rfl
  · rfl
  · rfl
  · exact enclosed _ failed honest

theorem vfsLookup_serves {excluded : U64 → Prop} {path : List U8} {held : HeapOwner → U64} :
    Serves 0#64 excluded held (vfsLookupCalls vfs path) held := by
  unfold vfsLookupCalls
  dsimp only
  split_ifs with unmounted slash failed
  · exact .refl
  · exact .refl
  · exact .alloc_failed
  · exact .temporary _

end Nekonix
