import Nekonix.Dev.Vfs.HeapCalls

/-!
# The initial file system of `fs/ramfs.c`

The archive lies in memory, where `strtok` cuts its names in place.  The nodes
are made with `vfs_create`; a file's data stays in the archive.
-/

namespace Nekonix

/-- `USTAR_HEADER_SIZE` -/
def ustarHeaderSize : U32 := 512#32

/-! Where the fields of `ustar_header_t` lie -/

def ustarModeOffset : U64 := 100#64
def ustarSizeOffset : U64 := 124#64
def ustarTypeflagOffset : U64 := 156#64

/-! The permission bits of a mode -/

def tuRead : U32 := 0o400#32
def tuWrite : U32 := 0o200#32
def tuExec : U32 := 0o100#32
def tgRead : U32 := 0o040#32
def tgWrite : U32 := 0o020#32
def tgExec : U32 := 0o010#32
def toRead : U32 := 0o004#32
def toWrite : U32 := 0o002#32
def toExec : U32 := 0o001#32

/-- `permissions |= (mode & bit) ? perm : 0;` -/
def addPermission (mode bit perm permissions : U32) : U32 :=
  permissions ||| (if mode &&& bit ≠ 0#32 then perm else 0#32)

/-- The permissions that `ramfs_parse` gives to directories and files. -/
def ramfsPermissions (mode : U32) : U32 :=
  let permissions := addPermission mode tuRead vnodePermsOwnerRead 0#32
  let permissions := addPermission mode tuWrite vnodePermsOwnerWrite permissions
  let permissions := addPermission mode tuExec vnodePermsOwnerExecute permissions
  let permissions := addPermission mode tgRead vnodePermsGroupRead permissions
  let permissions := addPermission mode tgWrite vnodePermsGroupWrite permissions
  let permissions := addPermission mode tgExec vnodePermsGroupExecute permissions
  let permissions := addPermission mode toRead vnodePermsOthersRead permissions
  let permissions := addPermission mode toWrite vnodePermsOthersWrite permissions
  addPermission mode toExec vnodePermsOthersExecute permissions

/-- The file tree, the memory with the archive, `strtok`'s `last`, and the heap calls made
so far. -/
structure Ramfs where
  vfs : Vfs
  memory : Memory
  last : U64
  calls : List HeapCall

/-- `strtok(str, "/")` -/
def Ramfs.strtok (ramfs : Ramfs) (str : U64) : U64 × Ramfs :=
  let (token, memory, last) := Nekonix.strtok ramfs.memory ramfs.last str [charSlash]
  (token, { ramfs with memory, last })

/-- Where the loop over the components of a name ends: the token, and the parent
for what is still to be made. -/
structure ComponentsEnd where
  token : U64
  currentParent : U64

/-- `while (token != NULL)`; nothing but a state where `vfs_create` failed. -/
def ramfsParseComponents (isDirectory : Bool) (mode : U32) : (fuel : Nat) → (ramfs : Ramfs) →
    (token currentParent : U64) → Option (Option ComponentsEnd × Ramfs)
  | 0, _, _, _ => none
  | fuel + 1, ramfs, token, currentParent =>
      if token = 0#64 then
        some (some ⟨token, currentParent⟩, ramfs)
      else do
        let name := cString ramfs.memory token
        let subdir ← vfsSearchNode ramfs.vfs currentParent name
        if subdir = 0#64 then
          if isDirectory then
            let (error, subdir, vfs) ←
              vfsCreate ramfs.vfs currentParent (some name) .directory (ramfsPermissions mode)
            let calls := ramfs.calls ++ vfsCreateCalls ramfs.vfs currentParent (some name)
            let ramfs := { ramfs with vfs, calls }
            if error ≠ 0#32 then
              some (none, ramfs)
            else
              let (token, ramfs) := ramfs.strtok 0#64
              ramfsParseComponents isDirectory mode fuel ramfs token subdir
          else
            some (some ⟨token, currentParent⟩, ramfs)
        else
          let (token, ramfs) := ramfs.strtok 0#64
          ramfsParseComponents isDirectory mode fuel ramfs token subdir

/-- `if (!is_directory)`: the error code and the state after the file is made. -/
def ramfsMakeFile (ramfs : Ramfs) (header : U64) (fileSize mode : U32) (stop : ComponentsEnd) :
    Option (U32 × Ramfs) :=
  let (fileName, ramfs) := ramfs.strtok stop.token
  if fileName ≠ 0#64 ∧ strlen ramfs.memory fileName > 0#64 then do
    let name := cString ramfs.memory fileName
    let (error, newFile, vfs) ←
      vfsCreate ramfs.vfs stop.currentParent (some name) .file (ramfsPermissions mode)
    let calls := ramfs.calls ++ vfsCreateCalls ramfs.vfs stop.currentParent (some name)
    let ramfs := { ramfs with vfs, calls }
    if error ≠ 0#32 then
      some (1#32, ramfs)
    else
      let vnode ← ramfs.vfs.vnodes newFile
      let vnode :=
        { vnode with
          data := header + ustarHeaderSize.setWidth 64
          size := fileSize.setWidth 64 }
      some (0#32, { ramfs with vfs := ramfs.vfs.store newFile vnode })
  else
    some (0#32, ramfs)

/-- `USTAR_HEADER_SIZE + ((file_size + 511) & ~511)` -/
def ustarEntrySize (fileSize : U32) : U32 :=
  ustarHeaderSize + ((fileSize + 511#32) &&& ~~~511#32)

/-- The characters of `"./"`. -/
def dotSlash : List U8 := [charDot, charSlash]

/-- The entry loop of `ramfs_parse` from `offset` on. -/
def ramfsParseEntries (ramfsData ramfsSize parent : U64) : (fuel : Nat) → (ramfs : Ramfs) →
    (offset : U64) → Option (U32 × Ramfs)
  | 0, _, _ => none
  | fuel + 1, ramfs, offset =>
      if offset < ramfsSize then
        let header := ramfsData + offset
        if ramfs.memory header = 0#8 then
          some (0#32, ramfs)
        else
          let fileSize : U32 :=
            BitVec.ofInt 32 (strtol ramfs.memory (header + ustarSizeOffset) 8)
          let isDirectory := ramfs.memory (header + ustarTypeflagOffset) = charFive
          let mode : U32 := BitVec.ofInt 32 (strtol ramfs.memory (header + ustarModeOffset) 8)
          let name :=
            if strncmp (cString ramfs.memory header) dotSlash 2 = 0 then header + 2#64 else header
          let next := offset + (ustarEntrySize fileSize).setWidth 64
          if strlen ramfs.memory name = 0#64 ∨ strcmp (cString ramfs.memory name) [charDot] = 0 then
            ramfsParseEntries ramfsData ramfsSize parent fuel ramfs next
          else do
            let (token, ramfs) := ramfs.strtok name
            let (stop, ramfs) ←
              ramfsParseComponents isDirectory mode (2 ^ 64) ramfs token parent
            match stop with
            | none => some (1#32, ramfs)
            | some stop =>
                if isDirectory then
                  ramfsParseEntries ramfsData ramfsSize parent fuel ramfs next
                else
                  let (error, ramfs) ← ramfsMakeFile ramfs header fileSize mode stop
                  if error ≠ 0#32 then
                    some (1#32, ramfs)
                  else
                    ramfsParseEntries ramfsData ramfsSize parent fuel ramfs next
      else
        some (0#32, ramfs)

def ramfsParse (ramfsData ramfsSize : U64) (ramfs : Ramfs) (parent : U64) :
    Option (U32 × Ramfs) :=
  if ramfsData = 0#64 ∨ ramfsSize = 0#64 then
    some (1#32, ramfs)
  else
    ramfsParseEntries ramfsData ramfsSize parent (2 ^ 64) ramfs 0#64

def ramfsInit (data size : U64) (ramfs : Ramfs) : Option (U32 × Ramfs) :=
  if data = 0#64 ∨ size = 0#64 then
    some (1#32, ramfs)
  else do
    let initrd := ramfs.vfs.root
    let vnode ← ramfs.vfs.vnodes initrd
    let vnode :=
      { vnode with
        type := .directory
        size := size
        permissions := rootPermissions
        child := 0#64
        next := 0#64 }
    ramfsParse data size { ramfs with vfs := ramfs.vfs.store initrd vnode } initrd

end Nekonix
