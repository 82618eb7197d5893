import Nekonix.Lib.CString
import Nekonix.Lib.String
import Mathlib.Algebra.GroupWithZero.Nat

/-!
# The file tree of `dev/vfs.c`

The heap's vnodes by address: an address with no vnode is not allocated, or was
freed.  A vnode's name is the copy that `strdup` made for it, which nothing
writes to.  What the coming `kmalloc` calls return is listed in `supply`; it is
NULL when the list is used up.  A walk along pointers that meets a dead vnode or
never ends has no result.  The log output and the clock readings, which only the
log prints, are left out.
-/

namespace Nekonix

/-- `vnode_type_t` -/
inductive VnodeType where
  | directory
  | file
deriving DecidableEq

/-! `vnode_perms_t` -/

def vnodePermsOwnerRead : U32 := 0x0001#32
def vnodePermsOwnerWrite : U32 := 0x0002#32
def vnodePermsOwnerExecute : U32 := 0x0004#32
def vnodePermsGroupRead : U32 := 0x0010#32
def vnodePermsGroupWrite : U32 := 0x0020#32
def vnodePermsGroupExecute : U32 := 0x0040#32
def vnodePermsOthersRead : U32 := 0x0100#32
def vnodePermsOthersWrite : U32 := 0x0200#32
def vnodePermsOthersExecute : U32 := 0x0400#32

/-- A string in a heap block of its own. -/
structure HeapString where
  block : U64
  text : List U8
deriving DecidableEq

/-- `vnode_t` -/
structure Vnode where
  parent : U64
  next : U64
  child : U64
  type : VnodeType
  permissions : U32
  name : HeapString
  size : U64
  uid : U32
  data : U64
deriving DecidableEq

/-- The file tree: the live vnodes, `g_vfs_root`, and the heap blocks to come. -/
structure Vfs where
  vnodes : U64 → Option Vnode
  root : U64
  supply : List U64

namespace Vfs

/-- `kmalloc` -/
def kmalloc (vfs : Vfs) : U64 × Vfs :=
  match vfs.supply with
  | [] => (0#64, vfs)
  | block :: supply => (block, { vfs with supply })

/-- `kfree` of a vnode -/
def kfree (vfs : Vfs) (node : U64) : Vfs :=
  { vfs with vnodes := Function.update vfs.vnodes node none }

/-- `*node = vnode` -/
def store (vfs : Vfs) (node : U64) (vnode : Vnode) : Vfs :=
  { vfs with vnodes := Function.update vfs.vnodes node (some vnode) }

end Vfs

def rootName : List U8 := [charSlash]

/-- The permissions of the root. -/
def rootPermissions : U32 :=
  vnodePermsOwnerRead ||| vnodePermsOwnerWrite ||| vnodePermsOwnerExecute |||
    vnodePermsGroupRead ||| vnodePermsGroupExecute |||
    vnodePermsOthersRead ||| vnodePermsOthersExecute

/-- The vnode that `vfs_init` fills in. -/
def rootVnode (name : HeapString) : Vnode where
  parent := 0#64
  next := 0#64
  child := 0#64
  type := .directory
  permissions := rootPermissions
  name := name
  size := 0#64
  uid := 0#32
  data := 0#64

/-- `vfs_init`: the error code and the state after the call. -/
def vfsInit (vfs : Vfs) : U32 × Vfs :=
  let (node, vfs) := vfs.kmalloc
  if node = 0#64 then
    (1#32, { vfs with root := 0#64 })
  else
    let (copy, vfs) := vfs.kmalloc
    (0#32, { vfs.store node (rootVnode ⟨copy, rootName⟩) with root := node })

/-- `while (current->next) current = current->next;` -/
def lastSibling (vnodes : U64 → Option Vnode) : (fuel : Nat) → (current : U64) → Option U64
  | 0, _ => none
  | fuel + 1, current => do
      let vnode ← vnodes current
      if vnode.next = 0#64 then
        some current
      else
        lastSibling vnodes fuel vnode.next

/-- The vnode that `vfs_create` fills in. -/
def newVnode (parent : U64) (name : HeapString) (type : VnodeType) (perms : U32) : Vnode where
  parent := parent
  next := 0#64
  child := 0#64
  type := type
  permissions := perms
  name := name
  size := 0#64
  uid := 0#32
  data := 0#64

/-- `vfs_create` with `new_node` not NULL: the error code, the new node, and the
state after the call. -/
def vfsCreate (vfs : Vfs) (parent : U64) (name : Option (List U8)) (type : VnodeType)
    (perms : U32) : Option (U32 × U64 × Vfs) :=
  match name with
  | none => some (1#32, 0#64, vfs)
  | some name =>
      if parent = 0#64 then
        some (1#32, 0#64, vfs)
      else
        let (node, vfs) := vfs.kmalloc
        if node = 0#64 then
          some (1#32, 0#64, vfs)
        else
          let (copy, vfs) := vfs.kmalloc
          if copy = 0#64 then
            some (1#32, 0#64, vfs.kfree node)
          else do
            let vfs := vfs.store node (newVnode parent ⟨copy, name⟩ type perms)
            let parentNode ← vfs.vnodes parent
            if parentNode.child = 0#64 then
              some (0#32, node, vfs.store parent { parentNode with child := node })
            else
              let current ← lastSibling vfs.vnodes (2 ^ 64) parentNode.child
              let last ← vfs.vnodes current
              some (0#32, node, vfs.store current { last with next := node })

/-- The search of `vfs_remove`: the sibling before `node`, NULL for the first
child; nothing if the list ends without `node`. -/
def siblingBefore (vnodes : U64 → Option Vnode) (node : U64) :
    (fuel : Nat) → (prev curr : U64) → Option (Option U64)
  | 0, _, _ => none
  | fuel + 1, prev, curr =>
      if curr = 0#64 then
        some none
      else if curr = node then
        some (some prev)
      else do
        let vnode ← vnodes curr
        siblingBefore vnodes node fuel curr vnode.next

/-- `vfs_remove`: the error code and the state after the call. -/
def vfsRemove (vfs : Vfs) (parent node : U64) : Option (U32 × Vfs) :=
  if parent = 0#64 ∨ node = 0#64 then
    some (1#32, vfs)
  else do
    let parentNode ← vfs.vnodes parent
    match ← siblingBefore vfs.vnodes node (2 ^ 64) 0#64 parentNode.child with
    | none => some (1#32, vfs)
    | some prev =>
        let curr ← vfs.vnodes node
        if prev ≠ 0#64 then
          let prevNode ← vfs.vnodes prev
          some (0#32, (vfs.store prev { prevNode with next := curr.next }).kfree node)
        else
          some (0#32, (vfs.store parent { parentNode with child := curr.next }).kfree node)

/-- `vfs_chmod`: the error code and the state after the call. -/
def vfsChmod (vfs : Vfs) (node : U64) (permissions : U32) : Option (U32 × Vfs) :=
  if node = 0#64 then
    some (1#32, vfs)
  else do
    let vnode ← vfs.vnodes node
    some (0#32, vfs.store node { vnode with permissions })

/-- The loop of `vfs_search_node`. -/
def searchSiblings (vnodes : U64 → Option Vnode) (name : List U8) :
    (fuel : Nat) → (curr : U64) → Option U64
  | 0, _ => none
  | fuel + 1, curr =>
      if curr = 0#64 then
        some 0#64
      else do
        let vnode ← vnodes curr
        if strcmp vnode.name.text name = 0 then
          some curr
        else
          searchSiblings vnodes name fuel vnode.next

/-- `vfs_search_node` with `name` not NULL -/
def vfsSearchNode (vfs : Vfs) (parent : U64) (name : List U8) : Option U64 :=
  if parent = 0#64 then
    some 0#64
  else do
    let vnode ← vfs.vnodes parent
    searchSiblings vfs.vnodes name (2 ^ 64) vnode.child

/-- A memory with a string at `block`: the block `strdup` fills. -/
def stringBlock (block : U64) (text : List U8) : Memory := strcpy (fun _ => 0#8) block text

/-- The loop of `vfs_traverse_path`; `last` is `strtok`'s. -/
def traverseTokens (vfs : Vfs) :
    (fuel : Nat) → (memory : Memory) → (last token node : U64) → Option U64
  | 0, _, _, _, _ => none
  | fuel + 1, memory, last, token, node =>
      if token = 0#64 then
        some node
      else do
        let node ← vfsSearchNode vfs node (cString memory token)
        if node = 0#64 then
          some 0#64
        else
          let (token, memory, last) := strtok memory last 0#64 [charSlash]
          traverseTokens vfs fuel memory last token node

/-- `vfs_traverse_path` with `path` not NULL, where `last` is `strtok`'s from
before: the node, and the state after the call. -/
def vfsTraversePath (vfs : Vfs) (last : U64) (path : List U8) : Option (U64 × Vfs) :=
  if vfs.root = 0#64 then
    some (0#64, vfs)
  else if strcmp path [charSlash] = 0 then
    some (vfs.root, vfs)
  else
    let (pathCopy, vfs) := vfs.kmalloc
    if pathCopy = 0#64 then
      some (0#64, vfs)
    else do
      let (token, memory, last) := strtok (stringBlock pathCopy path) last pathCopy [charSlash]
      let node ← traverseTokens vfs (2 ^ 64) memory last token vfs.root
      some (node, vfs)

def vfsLookup (vfs : Vfs) (last : U64) (path : List U8) : Option (U64 × Vfs) :=
  vfsTraversePath vfs last path

/-- The first loop of `vfs_get_path`. -/
def addNameLengths (vnodes : U64 → Option Vnode) :
    (fuel : Nat) → (current : U64) → (pathLength : Nat) → Option Nat
  | 0, _, _ => none
  | fuel + 1, current, pathLength =>
      if current = 0#64 then
        some pathLength
      else do
        let vnode ← vnodes current
        addNameLengths vnodes fuel vnode.parent (pathLength + (vnode.name.text.length + 1))

/-- `snprintf(path + strlen(path), path_length - strlen(path) + 1, "%s", name)` -/
def appendName (pathLength : Nat) (path name : List U8) : List U8 :=
  path ++ name.take (pathLength - path.length)

/-- The second loop of `vfs_get_path`. -/
def appendNames (vnodes : U64 → Option Vnode) (pathLength : Nat) :
    (fuel : Nat) → (current : U64) → (path : List U8) → Option (List U8)
  | 0, _, _ => none
  | fuel + 1, current, path =>
      if current = 0#64 then
        some path
      else do
        let vnode ← vnodes current
        appendNames vnodes pathLength fuel vnode.parent
          (appendName pathLength path vnode.name.text)

/-- `vfs_get_path`: the path, or nothing for NULL, and the state after the call. -/
def vfsGetPath (vfs : Vfs) (node : U64) : Option (Option (List U8) × Vfs) :=
  if node = 0#64 then
    some (none, vfs)
  else do
    let vnode ← vfs.vnodes node
    let pathLength ← addNameLengths vfs.vnodes (2 ^ 64) vnode.parent vnode.name.text.length
    let (path, vfs) := vfs.kmalloc
    if path = 0#64 then
      some (none, vfs)
    else
      let ancestors ← appendNames vfs.vnodes pathLength (2 ^ 64) vnode.parent []
      some (some (appendName pathLength ancestors vnode.name.text), vfs)

/-- `krealloc`: the block, NULL if it fails, and the memory after the call. -/
abbrev Krealloc := (memory : Memory) → (ptr size : U64) → U64 × Memory

/-- `vfs_read`: the returned value and the memory after the call. -/
def vfsRead (vfs : Vfs) (memory : Memory) (node : U64) (offset size : U32) (buffer : U64) :
    Option (U32 × Memory) :=
  if node = 0#64 ∨ buffer = 0#64 then
    some (1#32, memory)
  else do
    let vnode ← vfs.vnodes node
    let size :=
      if (offset + size).setWidth 64 > vnode.size then
        (vnode.size - offset.setWidth 64).setWidth 32
      else
        size
    some (size, memcpy memory buffer (vnode.data + offset.setWidth 64) size.toNat)

/-- `vfs_write`: the returned value and the state after the call. -/
def vfsWrite (krealloc : Krealloc) (vfs : Vfs) (memory : Memory) (node : U64) (offset size : U32)
    (buffer : U64) : Option (U32 × Vfs × Memory) :=
  if node = 0#64 ∨ buffer = 0#64 then
    some (1#32, vfs, memory)
  else do
    let vnode ← vfs.vnodes node
    let newSize := offset + size
    if newSize.setWidth 64 > vnode.size then
      let (newData, memory) := krealloc memory vnode.data (newSize.setWidth 64)
      if newData = 0#64 then
        some (1#32, vfs, memory)
      else
        some (size, vfs.store node { vnode with data := newData, size := newSize.setWidth 64 },
          memcpy memory (newData + offset.setWidth 64) buffer size.toNat)
    else
      some (size, vfs, memcpy memory (vnode.data + offset.setWidth 64) buffer size.toNat)

end Nekonix
