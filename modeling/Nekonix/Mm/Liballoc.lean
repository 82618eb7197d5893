import Nekonix.Library.FlatMemory.Record
import Nekonix.Lib.String

/-!
# The heap of `mm/liballoc/liballoc.c`

The headers lie in the memory that the heap gives out, byte for byte.  A call that finds the
lock taken, or whose loop does not end, has no result.  What the coming calls of
`liballoc_alloc` return is listed in `supply`; it is NULL when the list is used up.  Log output
is left out.
-/

namespace Nekonix

open FlatMemory

/-! `struct liballoc_major` -/

def majorPrev : Field 40 8 := ⟨0, by decide⟩
def majorNext : Field 40 8 := ⟨8, by decide⟩
def majorPages : Field 40 4 := ⟨16, by decide⟩
def majorSize : Field 40 4 := ⟨20, by decide⟩
def majorUsage : Field 40 4 := ⟨24, by decide⟩
def majorFirst : Field 40 8 := ⟨32, by decide⟩

/-- `sizeof(struct liballoc_major)` -/
def sizeofMajor : U64 := 40#64

/-! `struct liballoc_minor` -/

def minorPrev : Field 40 8 := ⟨0, by decide⟩
def minorNext : Field 40 8 := ⟨8, by decide⟩
def minorBlock : Field 40 8 := ⟨16, by decide⟩
def minorMagic : Field 40 4 := ⟨24, by decide⟩
def minorSize : Field 40 4 := ⟨28, by decide⟩
def minorReqSize : Field 40 4 := ⟨32, by decide⟩

/-- `sizeof(struct liballoc_minor)` -/
def sizeofMinor : U64 := 40#64

/-- `ALIGNMENT` -/
def alignment : U64 := 16#64

/-- `ALIGN_INFO` -/
def alignInfo : U64 := 16#64

/-- `LIBALLOC_MAGIC` -/
def liballocMagic : U32 := 0xc001c0de#32

/-- `LIBALLOC_DEAD` -/
def liballocDead : U32 := 0xdeaddead#32

/-- `l_pageSize` -/
def lPageSize : U32 := 4096#32

/-- `l_pageCount` -/
def lPageCount : U32 := 16#32

/-! State -/

/-- The calls of `liballoc_alloc`, with the result, and of `liballoc_free`. -/
inductive PageCall where
  | alloc (pages : U32) (ptr : U64)
  | free (ptr : U64) (pages : U32)
deriving DecidableEq

/-- The variables of `liballoc.c`, the lock, and the pages to come and those asked for so far. -/
structure Liballoc where
  memory : Memory
  locked : Bool
  memRoot : U64
  bestBet : U64
  allocated : U64
  inuse : U64
  warningCount : U64
  errorCount : U64
  possibleOverruns : U64
  supply : List U64
  pageCalls : List PageCall

namespace Liballoc

/-- The heap before its first call. -/
def boot (memory : Memory) (supply : List U64) : Liballoc where
  memory := memory
  locked := false
  memRoot := 0#64
  bestBet := 0#64
  allocated := 0#64
  inuse := 0#64
  warningCount := 0#64
  errorCount := 0#64
  possibleOverruns := 0#64
  supply := supply
  pageCalls := []

/-- `base->field` -/
def read {extent size : Nat} (heap : Liballoc) (field : Field extent size) (base : U64) :
    BitVec (8 * size) :=
  field.read heap.memory base

/-- `base->field = value` -/
def write {extent size : Nat} (heap : Liballoc) (field : Field extent size) (base : U64)
    (value : BitVec (8 * size)) : Liballoc :=
  { heap with memory := field.write heap.memory base value }

/-- `liballoc_lock`, which spins for ever on a lock that is taken. -/
def lock (heap : Liballoc) : Option Liballoc :=
  if heap.locked then none else some { heap with locked := true }

/-- `liballoc_unlock` -/
def unlock (heap : Liballoc) : Liballoc := { heap with locked := false }

/-- `liballoc_alloc` -/
def pagesAlloc (heap : Liballoc) (pages : U32) : U64 × Liballoc :=
  (heap.supply.headD 0#64,
    { heap with
      supply := heap.supply.tail
      pageCalls := heap.pageCalls ++ [.alloc pages (heap.supply.headD 0#64)] })

/-- `liballoc_free` -/
def pagesFree (heap : Liballoc) (ptr : U64) (pages : U32) : Liballoc :=
  { heap with pageCalls := heap.pageCalls ++ [.free ptr pages] }

end Liballoc

/-- `ALIGN(ptr)`: `ptr` and the heap after it. -/
def alignPtr (heap : Liballoc) (ptr : U64) : U64 × Liballoc :=
  let ptr := ptr + alignInfo
  let diff := ptr &&& (alignment - 1#64)
  let (ptr, diff) :=
    if diff ≠ 0#64 then (ptr + (alignment - diff), alignment - diff) else (ptr, diff)
  (ptr,
    { heap with
      memory := Function.update heap.memory (ptr - alignInfo) ((diff + alignInfo).setWidth 8) })

/-- `UNALIGN(ptr)`; `ALIGN_TYPE` is a signed character. -/
def unalignPtr (memory : Memory) (ptr : U64) : U64 :=
  let diff : U64 := (memory (ptr - alignInfo)).signExtend 64
  if diff < alignment + alignInfo then ptr - diff else ptr

/-! `liballoc_memset` and `liballoc_memcpy` -/

/-- The counter has 32 bits, so the loop does not end for a larger `n`. -/
def liballocMemset (memory : Memory) (s : U64) (c : U8) (n : U64) : Option Memory :=
  if n.toNat < 2 ^ 32 then some (memset memory s c n.toNat) else none

/-- `while (n >= sizeof(unsigned int))` -/
def liballocCopyWords (memory : Memory) (ldest lsrc : U64) : (words : Nat) → Memory
  | 0 => memory
  | words + 1 =>
      liballocCopyWords (Memory.store32 memory ldest (Memory.load32 memory lsrc)) (ldest + 4#64)
        (lsrc + 4#64) words

def liballocMemcpy (memory : Memory) (s1 s2 : U64) (n : Nat) : Memory :=
  let words := n / 4
  memcpy (liballocCopyWords memory s1 s2 words) (s1 + BitVec.ofNat 64 (4 * words))
    (s2 + BitVec.ofNat 64 (4 * words)) (n % 4)

/-! Pages -/

/-- The pages that `allocate_new_page` asks for. -/
def newPageCount (size : U32) : U32 :=
  let st := size + sizeofMajor.setWidth 32
  let st := st + sizeofMinor.setWidth 32
  let st := if st % lPageSize = 0#32 then st / lPageSize else st / lPageSize + 1#32
  if st < lPageCount then lPageCount else st

/-- `allocate_new_page` -/
def allocateNewPage (heap : Liballoc) (size : U32) : U64 × Liballoc :=
  let st := newPageCount size
  let (maj, heap) := heap.pagesAlloc st
  if maj = 0#64 then
    (0#64, { heap with warningCount := heap.warningCount + 1#64 })
  else
    let heap := heap.write majorPrev maj 0#64
    let heap := heap.write majorNext maj 0#64
    let heap := heap.write majorPages maj st
    let heap := heap.write majorSize maj (st * lPageSize)
    let heap := heap.write majorUsage maj (sizeofMajor.setWidth 32)
    let heap := heap.write majorFirst maj 0#64
    (maj, { heap with allocated := heap.allocated + (heap.read majorSize maj).setWidth 64 })

/-! `kmalloc` -/

/-- `maj->size - maj->usage` -/
def majorFree (heap : Liballoc) (maj : U64) : U64 :=
  (heap.read majorSize maj - heap.read majorUsage maj).setWidth 64

/-- What every case does with the minor that it has linked in. -/
def finishMinor (heap : Liballoc) (maj min size : U64) : U64 × Liballoc :=
  let heap := heap.write majorUsage maj
    (heap.read majorUsage maj + (size + sizeofMinor).setWidth 32)
  let heap := { heap with inuse := heap.inuse + size }
  alignPtr heap (min + sizeofMinor)

/-- `CASE 2`: the block has no minor yet. -/
def placeFirst (heap : Liballoc) (maj size reqSize : U64) : U64 × Liballoc :=
  let first := maj + sizeofMajor
  let heap := heap.write majorFirst maj first
  let heap := heap.write minorMagic first liballocMagic
  let heap := heap.write minorPrev first 0#64
  let heap := heap.write minorNext first 0#64
  let heap := heap.write minorBlock first maj
  let heap := heap.write minorSize first (size.setWidth 32)
  let heap := heap.write minorReqSize first (reqSize.setWidth 32)
  finishMinor heap maj first size

/-- `CASE 3`: there is room in front of the first minor. -/
def placeFront (heap : Liballoc) (maj size reqSize : U64) : U64 × Liballoc :=
  let first := heap.read majorFirst maj
  let new := maj + sizeofMajor
  let heap := heap.write minorPrev first new
  let heap := heap.write minorNext new first
  let heap := heap.write majorFirst maj new
  let heap := heap.write minorMagic new liballocMagic
  let heap := heap.write minorPrev new 0#64
  let heap := heap.write minorBlock new maj
  let heap := heap.write minorSize new (size.setWidth 32)
  let heap := heap.write minorReqSize new (reqSize.setWidth 32)
  finishMinor heap maj new size

/-- The address behind what belongs to a minor. -/
def minorEnd (heap : Liballoc) (min : U64) : U64 :=
  min + sizeofMinor + (heap.read minorSize min).setWidth 64

/-- `CASE 4.1`: there is room behind the last minor. -/
def placeLast (heap : Liballoc) (maj min size reqSize : U64) : U64 × Liballoc :=
  let new := minorEnd heap min
  let heap := heap.write minorNext min new
  let heap := heap.write minorPrev new min
  let heap := heap.write minorNext new 0#64
  let heap := heap.write minorMagic new liballocMagic
  let heap := heap.write minorBlock new maj
  let heap := heap.write minorSize new (size.setWidth 32)
  let heap := heap.write minorReqSize new (reqSize.setWidth 32)
  finishMinor heap maj new size

/-- `CASE 4.2`: there is room between a minor and the next one. -/
def placeBetween (heap : Liballoc) (maj min size reqSize : U64) : U64 × Liballoc :=
  let next := heap.read minorNext min
  let new := minorEnd heap min
  let heap := heap.write minorMagic new liballocMagic
  let heap := heap.write minorNext new next
  let heap := heap.write minorPrev new min
  let heap := heap.write minorSize new (size.setWidth 32)
  let heap := heap.write minorReqSize new (reqSize.setWidth 32)
  let heap := heap.write minorBlock new maj
  let heap := heap.write minorPrev next new
  let heap := heap.write minorNext min new
  finishMinor heap maj new size

/-- The loop of `CASE 4`; it ends without a place where no gap is large enough. -/
def mallocBetween (heap : Liballoc) (maj size reqSize : U64) :
    (fuel : Nat) → (min : U64) → Option (Option (U64 × Liballoc))
  | 0, _ => none
  | fuel + 1, min =>
      if min = 0#64 then
        some none
      else if heap.read minorNext min = 0#64 ∧
          maj + (heap.read majorSize maj).setWidth 64 - min - sizeofMinor -
            (heap.read minorSize min).setWidth 64 ≥ size + sizeofMinor then
        some (some (placeLast heap maj min size reqSize))
      else if heap.read minorNext min ≠ 0#64 ∧
          heap.read minorNext min - min - sizeofMinor - (heap.read minorSize min).setWidth 64 ≥
            size + sizeofMinor then
        some (some (placeBetween heap maj min size reqSize))
      else
        mallocBetween heap maj size reqSize fuel (heap.read minorNext min)

/-- `CASE 2` to `CASE 4`: a place in the block, if there is one. -/
def mallocInBlock (heap : Liballoc) (maj size reqSize : U64) : Option (Option (U64 × Liballoc)) :=
  let first := heap.read majorFirst maj
  if first = 0#64 then
    some (some (placeFirst heap maj size reqSize))
  else if first - maj - sizeofMajor ≥ size + sizeofMinor then
    some (some (placeFront heap maj size reqSize))
  else
    mallocBetween heap maj size reqSize (2 ^ 64) first

/-- Where `CASE 1` and `CASE 5` go on from a block without a place. -/
inductive NextBlock where
  | visit (startedBet : Bool) (maj : U64)
  | fresh (page : U64) (heap : Liballoc)
  | refused (heap : Liballoc)

/-- The block behind `maj`, or the first one if the search did not start there, or a new one
behind `maj`. -/
def nextBlock (heap : Liballoc) (startedBet : Bool) (maj size : U64) : NextBlock :=
  let next := heap.read majorNext maj
  if next ≠ 0#64 then
    .visit startedBet next
  else if startedBet then
    .visit false heap.memRoot
  else
    let (page, heap) := allocateNewPage heap (size.setWidth 32)
    let heap := heap.write majorNext maj page
    if page = 0#64 then .refused heap else .fresh page (heap.write majorPrev page maj)

/-- The loop over the blocks. -/
def mallocSearch (size reqSize : U64) :
    (fuel : Nat) → (heap : Liballoc) → (startedBet : Bool) → (bestSize maj : U64) →
      Option (U64 × Liballoc)
  | 0, _, _, _, _ => none
  | fuel + 1, heap, startedBet, bestSize, maj =>
      if maj = 0#64 then
        some (0#64, heap)
      else
        let diff := majorFree heap maj
        let heap := { heap with bestBet := if bestSize < diff then maj else heap.bestBet }
        let bestSize := if bestSize < diff then diff else bestSize
        let inBlock := fun (heap : Liballoc) (maj : U64) =>
          (mallocInBlock heap maj size reqSize).bind fun
            | some placed => some placed
            | none =>
                -- `CASE 5`
                match nextBlock heap startedBet maj size with
                | .visit startedBet maj => mallocSearch size reqSize fuel heap startedBet bestSize maj
                | .fresh page heap => mallocSearch size reqSize fuel heap startedBet bestSize page
                | .refused heap => some (0#64, heap)
        if diff < size + sizeofMinor then
          -- `CASE 1`
          match nextBlock heap startedBet maj size with
          | .visit startedBet maj => mallocSearch size reqSize fuel heap startedBet bestSize maj
          | .fresh page heap => inBlock heap page
          | .refused heap => some (0#64, heap)
        else
          inBlock heap maj

/-- The search from the best bet, if it has room to spare, or else from the first block.  It
passes each of fewer than 2^64 blocks at most twice. -/
def mallocStart (heap : Liballoc) (size reqSize : U64) : Option (U64 × Liballoc) :=
  let bestSize := if heap.bestBet ≠ 0#64 then majorFree heap heap.bestBet else 0#64
  if heap.bestBet ≠ 0#64 ∧ bestSize > size + sizeofMinor then
    mallocSearch size reqSize (2 ^ 65) heap true bestSize heap.bestBet
  else
    mallocSearch size reqSize (2 ^ 65) heap false bestSize heap.memRoot

/-- `kmalloc` from where the lock is held and `size` is not 0. -/
def mallocLocked (heap : Liballoc) (reqSize : U64) : Option (U64 × Liballoc) :=
  let size := reqSize + (alignment + alignInfo)
  let heap :=
    if heap.memRoot = 0#64 then
      let (maj, heap) := allocateNewPage heap (size.setWidth 32)
      { heap with memRoot := maj }
    else
      heap
  let result :=
    if heap.memRoot = 0#64 then some (0#64, heap) else mallocStart heap size reqSize
  result.map fun (p, heap) => (p, heap.unlock)

/-- `kmalloc` -/
def kmalloc (heap : Liballoc) (reqSize : U64) : Option (U64 × Liballoc) := do
  let heap ← heap.lock
  if reqSize + (alignment + alignInfo) = 0#64 then
    -- The call for one byte takes the lock again.
    let heap ← { heap.unlock with warningCount := heap.warningCount + 1#64 }.lock
    mallocLocked heap 1#64
  else
    mallocLocked heap reqSize

/-! `kfree` -/

/-- The counters for a minor whose magic number is not there. -/
def countBadMagic (heap : Liballoc) (magic : U32) : Liballoc :=
  let heap := { heap with errorCount := heap.errorCount + 1#64 }
  if magic &&& 0xFFFFFF#32 = liballocMagic &&& 0xFFFFFF#32 ∨
      magic &&& 0xFFFF#32 = liballocMagic &&& 0xFFFF#32 ∨
      magic &&& 0xFF#32 = liballocMagic &&& 0xFF#32 then
    { heap with possibleOverruns := heap.possibleOverruns + 1#64 }
  else
    heap

/-- The minor is taken off the list of its block. -/
def unlinkMinor (heap : Liballoc) (maj min : U64) : Liballoc :=
  let heap :=
    if heap.read minorNext min ≠ 0#64 then
      heap.write minorPrev (heap.read minorNext min) (heap.read minorPrev min)
    else
      heap
  let heap :=
    if heap.read minorPrev min ≠ 0#64 then
      heap.write minorNext (heap.read minorPrev min) (heap.read minorNext min)
    else
      heap
  if heap.read minorPrev min = 0#64 then
    heap.write majorFirst maj (heap.read minorNext min)
  else
    heap

/-- A block without a minor is taken off the list and its pages are given back. -/
def releaseBlock (heap : Liballoc) (maj : U64) : Liballoc :=
  let heap :=
    { heap with
      memRoot := if heap.memRoot = maj then heap.read majorNext maj else heap.memRoot
      bestBet := if heap.bestBet = maj then 0#64 else heap.bestBet }
  let heap :=
    if heap.read majorPrev maj ≠ 0#64 then
      heap.write majorNext (heap.read majorPrev maj) (heap.read majorNext maj)
    else
      heap
  let heap :=
    if heap.read majorNext maj ≠ 0#64 then
      heap.write majorPrev (heap.read majorNext maj) (heap.read majorPrev maj)
    else
      heap
  let heap := { heap with allocated := heap.allocated - (heap.read majorSize maj).setWidth 64 }
  heap.pagesFree maj (heap.read majorPages maj)

/-- The block with a minor less becomes the best bet if it has more room; both sizes are
signed integers. -/
def reconsiderBet (heap : Liballoc) (maj : U64) : Liballoc :=
  if heap.bestBet ≠ 0#64 then
    let bestSize := heap.read majorSize heap.bestBet - heap.read majorUsage heap.bestBet
    let majSize := heap.read majorSize maj - heap.read majorUsage maj
    { heap with bestBet := if BitVec.slt bestSize majSize then maj else heap.bestBet }
  else
    heap

/-- The minor is counted out, marked and taken off its list. -/
def detachMinor (heap : Liballoc) (maj min : U64) : Liballoc :=
  let heap := { heap with inuse := heap.inuse - (heap.read minorSize min).setWidth 64 }
  let heap := heap.write majorUsage maj
    (heap.read majorUsage maj - (heap.read minorSize min + sizeofMinor.setWidth 32))
  let heap := heap.write minorMagic min liballocDead
  unlinkMinor heap maj min

/-- `kfree` of a minor with its magic number. -/
def freeMinor (heap : Liballoc) (min : U64) : Liballoc :=
  let maj := heap.read minorBlock min
  let heap := detachMinor heap maj min
  if heap.read majorFirst maj = 0#64 then releaseBlock heap maj else reconsiderBet heap maj

/-- `kfree` -/
def kfree (heap : Liballoc) (ptr : U64) : Option Liballoc :=
  if ptr = 0#64 then
    some { heap with warningCount := heap.warningCount + 1#64 }
  else
    heap.lock.map fun heap =>
      let min := unalignPtr heap.memory ptr - sizeofMinor
      let magic := heap.read minorMagic min
      let heap := if magic ≠ liballocMagic then countBadMagic heap magic else freeMinor heap min
      heap.unlock

/-! `kcalloc` and `krealloc` -/

/-- `kcalloc`; `real_size` is a signed integer, and nothing asks whether there is a block. -/
def kcalloc (heap : Liballoc) (nobj size : U64) : Option (U64 × Liballoc) := do
  let realSize : U64 := ((nobj * size).setWidth 32).signExtend 64
  let (p, heap) ← kmalloc heap realSize
  let memory ← liballocMemset heap.memory p 0#8 realSize
  pure (p, { heap with memory })

/-- `krealloc`; nothing asks whether there is a new block. -/
def krealloc (heap : Liballoc) (p size : U64) : Option (U64 × Liballoc) := do
  if size = 0#64 then
    let heap ← kfree heap p
    pure (0#64, heap)
  else if p = 0#64 then
    kmalloc heap size
  else
    let min := unalignPtr heap.memory p - sizeofMinor
    let heap ← heap.lock
    let magic := heap.read minorMagic min
    if magic ≠ liballocMagic then
      pure (0#64, (countBadMagic heap magic).unlock)
    else
      let realSize := heap.read minorReqSize min
      if realSize.setWidth 64 ≥ size then
        pure (p, (heap.write minorReqSize min (size.setWidth 32)).unlock)
      else
        let (ptr, heap) ← kmalloc heap.unlock size
        let memory := liballocMemcpy heap.memory ptr p realSize.toNat
        let heap ← kfree { heap with memory } p
        pure (ptr, heap)

end Nekonix
