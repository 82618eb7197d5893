import Nekonix.Dev.Vfs

/-!
# The file handles of `dev/hvfs.c`

A handle carries the user, the vnode and the mode it was opened with; its number
is always 0 and never read.  A missing handle is the NULL pointer.
-/

namespace Nekonix

namespace Hvfs

/-! Open modes -/

def readOnly : U32 := 0#32
def writeOnly : U32 := 1#32
def readWrite : U32 := 2#32
def create : U32 := 4#32

/-- `FILE` -/
structure File where
  uid : U32
  vnode : U64
  mode : U32

/-- The file tree, the open `FILE`s by address, and the memory. -/
structure State where
  vfs : Vfs
  files : U64 → Option File
  memory : Memory

/-- `vfs_lookup(path)`, where `path` may be `NULL` -/
def lookup (vfs : Vfs) (last : U64) : (path : Option (List U8)) → Option (U64 × Vfs)
  | none => some (0#64, vfs)
  | some path => vfsLookup vfs last path

/-- `open`, where `last` is `strtok`'s from before: the handle and the state after the
call.  With `CREATE` the block for the handle stays behind. -/
def openFile (state : State) (last : U64) (path : Option (List U8)) (mode : U32) :
    Option (U64 × State) :=
  let (fd, vfs) := state.vfs.kmalloc
  if fd = 0#64 then
    some (0#64, { state with vfs })
  else if mode &&& create ≠ 0#32 then
    some (0#64, { state with vfs })
  else do
    let (node, vfs) ← lookup vfs last path
    if node = 0#64 then
      some (0#64, { state with vfs })
    else
      let file := { uid := 0#32, vnode := node, mode }
      some (fd, { state with vfs, files := Function.update state.files fd (some file) })

/-- `hvfs_permission_check` -/
def permissionCheck (vfs : Vfs) (node : U64) (uid requiredPerms : U32) : Option Bool :=
  if node = 0#64 then
    some false
  else do
    let vnode ← vfs.vnodes node
    if vnode.uid = uid then
      if vnode.permissions &&& requiredPerms ≠ 0#32 then
        some true
      else if vnode.permissions &&& (requiredPerms <<< 4) ≠ 0#32 then
        some true
      else if vnode.permissions &&& (requiredPerms <<< 8) ≠ 0#32 then
        some true
      else
        some false
    else if vnode.permissions &&& (requiredPerms <<< 8) ≠ 0#32 then
      some true
    else
      some false

/-- The returned `-1`. -/
def failure : U32 := BitVec.ofInt 32 (-1)

/-- `read`: the returned value and the memory after the call. -/
def read (vfs : Vfs) (memory : Memory) (file : Option File) (buffer size : U64) :
    Option (U32 × Memory) :=
  match file with
  | none => some (failure, memory)
  | some file =>
      if file.mode ≠ readOnly ∧ file.mode ≠ readWrite then
        some (failure, memory)
      else do
        let vnode ← vfs.vnodes file.vnode
        if vnode.type ≠ .file then
          some (failure, memory)
        else
          let permitted ← permissionCheck vfs file.vnode file.uid vnodePermsOwnerRead
          if permitted = false then
            some (failure, memory)
          else
            let bytesRead := if size > vnode.size then vnode.size else size
            some (bytesRead.setWidth 32, memcpy memory buffer vnode.data bytesRead.toNat)

/-- `write`: the returned value and the state after the call. -/
def write (krealloc : Krealloc) (vfs : Vfs) (memory : Memory) (file : Option File)
    (buffer size : U64) : Option (U32 × Vfs × Memory) :=
  match file with
  | none => some (failure, vfs, memory)
  | some file =>
      if file.mode ≠ writeOnly ∧ file.mode ≠ readWrite then
        some (failure, vfs, memory)
      else do
        let vnode ← vfs.vnodes file.vnode
        if vnode.type ≠ .file then
          some (failure, vfs, memory)
        else
          let permitted ← permissionCheck vfs file.vnode file.uid vnodePermsOwnerWrite
          if permitted = false then
            some (failure, vfs, memory)
          else
            let (result, vfs, memory) ←
              vfsWrite krealloc vfs memory file.vnode 0#32 (size.setWidth 32) buffer
            if result.slt 0#32 then
              some (failure, vfs, memory)
            else
              some (result, vfs, memory)

/-- `chmod`: the returned value and the file tree after the call. -/
def chmod (vfs : Vfs) (file : Option File) (permissions : U32) : Option (U32 × Vfs) :=
  match file with
  | none => some (failure, vfs)
  | some file =>
      if file.vnode = 0#64 then
        some (failure, vfs)
      else do
        let (result, vfs) ← vfsChmod vfs file.vnode permissions
        if result ≠ 0#32 then
          some (failure, vfs)
        else
          some (0#32, vfs)

/-- `close`: the returned value and the state after the call. -/
def close (state : State) (file : U64) : U32 × State :=
  if file = 0#64 then
    (failure, state)
  else
    (0#32, { state with files := Function.update state.files file none })

end Hvfs

end Nekonix
