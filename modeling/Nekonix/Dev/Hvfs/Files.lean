import Nekonix.Library.Run
import Nekonix.Dev.Hvfs

/-!
# Files are byte arrays

The contents of a file are the bytes its vnode's data pointer leads to.  Writes
through either layer replace a range of them and reads through either layer
return a range, in every run of calls on one file.
-/

namespace Nekonix

open FlatMemory Transition

/-! Arrays of bytes -/

/-- `after` is `before` with `bytes` at `offset`. -/
structure Overwritten (before : List U8) (offset : Nat) (bytes after : List U8) : Prop where
  length : after.length = max before.length (offset + bytes.length)
  bytes : ∀ position, after[position]? =
    if offset ≤ position ∧ position < offset + bytes.length then bytes[position - offset]?
    else before[position]?

/-- Positions within two ranges that begin at a common base. -/
theorem inRange_within (base : U64) {start size position : Nat} (fits : start + size ≤ 2 ^ 64)
    (positionSmall : position < 2 ^ 64) :
    InRange (base + BitVec.ofNat 64 start) size (base + BitVec.ofNat 64 position) ↔
      start ≤ position ∧ position < start + size := by
  have distance : base + BitVec.ofNat 64 position - (base + BitVec.ofNat 64 start) =
      BitVec.ofNat 64 position - BitVec.ofNat 64 start := by
    rw [← BitVec.sub_sub, BitVec.add_comm base, BitVec.add_sub_cancel]
  rw [InRange, distance, BitVec.toNat_sub, BitVec.toNat_ofNat, BitVec.toNat_ofNat]
  omega

/-- Copying a buffer over part of a block. -/
theorem overwritten_memcpy {memory : Memory} {block buffer : U64} {size start count : Nat}
    {before : List U8} (oldBytes : ∀ position < before.length, position < size →
      before[position]? = some (memory (block + BitVec.ofNat 64 position)))
    (sizes : size = max before.length (start + count)) (inside : start ≤ before.length)
    (small : size < 2 ^ 64) (apart : Separate block size buffer count) :
    Overwritten before start (bytesAt memory buffer count)
      (bytesAt (memcpy memory (block + BitVec.ofNat 64 start) buffer count) block size) := by
  have bound : start + count ≤ size := by omega
  have copied : memcpy memory (block + BitVec.ofNat 64 start) buffer count =
      copy memory memory count (block + BitVec.ofNat 64 start) buffer := by
    refine memcpy_eq_copy (by omega) (fun _ _ => rfl) ?_
    intro offset below inDest
    refine apart _ ?_ (inRange_offset buffer (by omega) below)
    have distance := inDest
    rw [InRange, ← BitVec.sub_sub] at distance
    rw [InRange]
    generalize buffer + BitVec.ofNat 64 offset - block = away at distance ⊢
    rw [BitVec.toNat_sub, BitVec.toNat_ofNat] at distance
    omega
  refine ⟨by rw [length_bytesAt, length_bytesAt, sizes], ?_⟩
  intro position
  rw [copied, bytesAt_getElem?, length_bytesAt, bytesAt_getElem?]
  by_cases within : position < size
  · rw [if_pos within, copy]
    have range := inRange_within block (by omega : start + count ≤ 2 ^ 64)
      (by omega : position < 2 ^ 64)
    split_ifs with inCopy inWritten inBytes inWritten
    · have distance : buffer + (block + BitVec.ofNat 64 position - (block + BitVec.ofNat 64 start)) =
          buffer + BitVec.ofNat 64 (position - start) := by
        have offset : BitVec.ofNat 64 position =
            BitVec.ofNat 64 start + BitVec.ofNat 64 (position - start) := by
          rw [← BitVec.ofNat_add, Nat.add_sub_cancel' inWritten.1]
        rw [offset, ← BitVec.add_assoc, BitVec.add_comm (block + BitVec.ofNat 64 start),
          BitVec.add_sub_cancel]
      rw [distance]
    · omega
    · exact (inWritten (range.mp inCopy)).elim
    · exact (inCopy (range.mpr inWritten)).elim
    · omega
    · rw [oldBytes position (by omega) within]
  · have beyond : before.length ≤ position := by omega
    rw [if_neg within, List.getElem?_eq_none beyond]
    split_ifs <;> first | rfl | omega

/-! Calls on a file -/

inductive FileCall where
  | vfsWrite (offset size : U32) (buffer : U64)
  | vfsRead (offset size : U32) (buffer : U64)
  | write (file : Hvfs.File) (buffer size : U64)
  | read (file : Hvfs.File) (buffer size : U64)

structure FileState where
  vfs : Vfs
  memory : Memory

/-- The returned value and the state after a call on `node`. -/
def FileCall.perform (krealloc : Krealloc) (node : U64) (state : FileState) :
    FileCall → Option (U32 × FileState)
  | .vfsWrite offset size buffer =>
      (Nekonix.vfsWrite krealloc state.vfs state.memory node offset size buffer).map
        fun result => (result.1, ⟨result.2.1, result.2.2⟩)
  | .vfsRead offset size buffer =>
      (Nekonix.vfsRead state.vfs state.memory node offset size buffer).map
        fun result => (result.1, ⟨state.vfs, result.2⟩)
  | .write file buffer size =>
      (Hvfs.write krealloc state.vfs state.memory (some file) buffer size).map
        fun result => (result.1, ⟨result.2.1, result.2.2⟩)
  | .read file buffer size =>
      (Hvfs.read state.vfs state.memory (some file) buffer size).map
        fun result => (result.1, ⟨state.vfs, result.2⟩)

/-- `krealloc` succeeds, keeps the old bytes, and neither touches the caller's
buffer nor hands it out. -/
structure Kreallocated (memory : Memory) (ptr : U64) (oldSize newSize : Nat) (buffer : U64)
    (count : Nat) (result : U64 × Memory) : Prop where
  success : result.1 ≠ 0#64
  kept : ∀ offset < oldSize, result.2 (result.1 + BitVec.ofNat 64 offset) =
    memory (ptr + BitVec.ofNat 64 offset)
  untouched : bytesAt result.2 buffer count = bytesAt memory buffer count
  apart : Separate result.1 newSize buffer count

/-- What a write asks for: a buffer apart from the data, which `krealloc` can grow. -/
structure Writable (krealloc : Krealloc) (memory : Memory) (vnode : Vnode) (offset size : Nat)
    (buffer : U64) : Prop where
  nonnull : buffer ≠ 0#64
  start : offset ≤ vnode.size.toNat
  small : offset + size < 2 ^ 31
  apart : Separate vnode.data vnode.size.toNat buffer size
  grown : vnode.size.toNat < offset + size →
    Kreallocated memory vnode.data vnode.size.toNat (offset + size) buffer size
      (krealloc memory vnode.data (BitVec.ofNat 64 (offset + size)))

/-- What a read asks for: a buffer apart from the data. -/
structure Readable (vnode : Vnode) (offset size : Nat) (buffer : U64) : Prop where
  nonnull : buffer ≠ 0#64
  start : offset ≤ vnode.size.toNat
  small : offset + size < 2 ^ 32
  apart : Separate vnode.data vnode.size.toNat buffer size

/-- A handle on `node` whose mode and permissions grant the access. -/
structure Granted (vfs : Vfs) (node : U64) (vnode : Vnode) (file : Hvfs.File) (mode perms : U32) :
    Prop where
  opened : file.vnode = node
  mode : file.mode = mode ∨ file.mode = Hvfs.readWrite
  isFile : vnode.type = .file
  permitted : Hvfs.permissionCheck vfs node file.uid perms = some true

def FileCall.Allowed (krealloc : Krealloc) (node : U64) (state : FileState) (vnode : Vnode) :
    FileCall → Prop
  | .vfsWrite offset size buffer =>
      Writable krealloc state.memory vnode offset.toNat size.toNat buffer
  | .vfsRead offset size buffer => Readable vnode offset.toNat size.toNat buffer
  | .write file buffer size =>
      Granted state.vfs node vnode file Hvfs.writeOnly vnodePermsOwnerWrite ∧
        Writable krealloc state.memory vnode 0 size.toNat buffer
  | .read file buffer size =>
      Granted state.vfs node vnode file Hvfs.readOnly vnodePermsOwnerRead ∧
        Readable vnode 0 size.toNat buffer

/-- How many bytes a call asks for. -/
def FileCall.count : FileCall → Nat
  | .vfsWrite _ size _ => size.toNat
  | .vfsRead _ size _ => size.toNat
  | .write _ _ size => size.toNat
  | .read _ _ size => size.toNat

def FileCall.buffer : FileCall → U64
  | .vfsWrite _ _ buffer => buffer
  | .vfsRead _ _ buffer => buffer
  | .write _ buffer _ => buffer
  | .read _ buffer _ => buffer

def FileCall.offset : FileCall → Nat
  | .vfsWrite offset _ _ => offset.toNat
  | .vfsRead offset _ _ => offset.toNat
  | .write _ _ _ => 0
  | .read _ _ _ => 0

def FileCall.isWrite : FileCall → Bool
  | .vfsWrite _ _ _ => true
  | .vfsRead _ _ _ => false
  | .write _ _ _ => true
  | .read _ _ _ => false

/-- A call with what the caller sees: the value returned, and the buffer before
and after. -/
structure FileEvent where
  call : FileCall
  returned : U32
  given : List U8
  received : List U8

/-- A step of the code. -/
structure FileStep (krealloc : Krealloc) (node : U64) (state : FileState) (event : FileEvent)
    (next : FileState) : Prop where
  allowed : ∃ vnode, state.vfs.vnodes node = some vnode ∧
    event.call.Allowed krealloc node state vnode
  performed : event.call.perform krealloc node state = some (event.returned, next)
  given : event.given = bytesAt state.memory event.call.buffer event.call.count
  received : event.received = bytesAt next.memory event.call.buffer event.returned.toNat

/-- A step of a byte array: what a file is for. -/
def ArrayStep (contents : List U8) (event : FileEvent) (next : List U8) : Prop :=
  if event.call.isWrite then
    event.returned.toNat = event.call.count ∧ event.given.length = event.call.count ∧
      Overwritten contents event.call.offset event.given next
  else
    event.returned.toNat = min event.call.count (contents.length - event.call.offset) ∧
      event.received = (contents.drop event.call.offset).take event.call.count ∧ next = contents

/-- The contents of a file. -/
def fileContents (node : U64) (state : FileState) : List U8 :=
  match state.vfs.vnodes node with
  | none => []
  | some vnode => bytesAt state.memory vnode.data vnode.size.toNat

/-- A live vnode with fewer than 2^31 bytes. -/
structure FileReady (node : U64) (state : FileState) : Prop where
  nonnull : node ≠ 0#64
  live : ∃ vnode, state.vfs.vnodes node = some vnode ∧ vnode.size.toNat < 2 ^ 31

variable {krealloc : Krealloc} {node : U64} {state next : FileState} {vnode : Vnode}

theorem fileContents_live {vfs : Vfs} (live : vfs.vnodes node = some vnode) (memory : Memory) :
    fileContents node ⟨vfs, memory⟩ = bytesAt memory vnode.data vnode.size.toNat := by
  rw [fileContents, live]

theorem fileContents_store (vfs : Vfs) (node : U64) (vnode : Vnode) (memory : Memory) :
    fileContents node ⟨vfs.store node vnode, memory⟩ =
      bytesAt memory vnode.data vnode.size.toNat :=
  fileContents_live (Function.update_self ..) memory

/-- What a write that returns leaves. -/
structure Written (node : U64) (state : FileState) (offset : Nat) (bytes : List U8)
    (next : FileState) : Prop where
  ready : FileReady node next
  contents : Overwritten (fileContents node state) offset bytes (fileContents node next)

/-- The values the layers compute with, as numbers. -/
theorem setWidth_offset (offset : U32) :
    (offset.setWidth 64 : U64) = BitVec.ofNat 64 offset.toNat := by
  apply BitVec.eq_of_toNat_eq
  rw [BitVec.toNat_setWidth, BitVec.toNat_ofNat]

theorem setWidth_sum {offset size : U32} (small : offset.toNat + size.toNat < 2 ^ 32) :
    ((offset + size).setWidth 64 : U64) = BitVec.ofNat 64 (offset.toNat + size.toNat) := by
  apply BitVec.eq_of_toNat_eq
  rw [BitVec.toNat_setWidth, BitVec.toNat_add, BitVec.toNat_ofNat]
  omega

theorem gt_size_iff {sum : Nat} (small : sum < 2 ^ 64) (size : U64) :
    BitVec.ofNat 64 sum > size ↔ size.toNat < sum := by
  rw [gt_iff_lt, BitVec.lt_def, BitVec.toNat_ofNat, Nat.mod_eq_of_lt small]

/-- What `vfs_write` does to any file it can grow, however large. -/
theorem vfsWrite_overwrites {vfs : Vfs} {memory : Memory} (nonnull : node ≠ 0#64)
    (live : vfs.vnodes node = some vnode) {offset size : U32}
    {buffer : U64} (writable : Writable krealloc memory vnode offset.toNat size.toNat buffer) :
    ∃ next, (FileCall.vfsWrite offset size buffer).perform krealloc node ⟨vfs, memory⟩ =
        some (size, next) ∧
      Overwritten (fileContents node ⟨vfs, memory⟩) offset.toNat
        (bytesAt memory buffer size.toNat) (fileContents node next) ∧
      ∃ after, next.vfs.vnodes node = some after ∧
        after.size.toNat = max vnode.size.toNat (offset.toNat + size.toNat) := by
  obtain ⟨bufferNonnull, start, inRange, apart, grown⟩ := writable
  have notNull : ¬(node = 0#64 ∨ buffer = 0#64) := by
    rintro (isNull | isNull)
    · exact nonnull isNull
    · exact bufferNonnull isNull
  have sumNat : (BitVec.ofNat 64 (offset.toNat + size.toNat)).toNat =
      offset.toNat + size.toNat := by
    rw [BitVec.toNat_ofNat]
    omega
  simp only [FileCall.perform, vfsWrite, if_neg notNull, live, Option.bind_eq_bind,
    Option.bind_some, setWidth_sum (by omega : offset.toNat + size.toNat < 2 ^ 32),
    setWidth_offset, gt_size_iff (by omega : offset.toNat + size.toNat < 2 ^ 64)]
  by_cases larger : vnode.size.toNat < offset.toNat + size.toNat
  · have reallocated := grown larger
    rw [if_pos larger, if_neg reallocated.success]
    refine ⟨_, rfl, ?_, _, Function.update_self .., ?_⟩
    · rw [fileContents_store, fileContents_live live, ← reallocated.untouched]
      simp only [sumNat]
      refine overwritten_memcpy ?_ ?_ (by simpa using start) (by omega) reallocated.apart
      · intro position inOld _
        rw [length_bytesAt] at inOld
        rw [bytesAt_getElem?, if_pos inOld, reallocated.kept position inOld]
      · rw [length_bytesAt]
        omega
    · rw [sumNat]
      omega
  · rw [if_neg larger]
    refine ⟨_, rfl, ?_, vnode, live, by omega⟩
    rw [fileContents_live live, fileContents_live live]
    refine overwritten_memcpy ?_ ?_ (by simpa using start) vnode.size.isLt apart
    · intro position inOld _
      rw [length_bytesAt] at inOld
      rw [bytesAt_getElem?, if_pos inOld]
    · rw [length_bytesAt]
      omega

theorem vfsWrite_spec {vfs : Vfs} {memory : Memory} (nonnull : node ≠ 0#64)
    (live : vfs.vnodes node = some vnode) (small : vnode.size.toNat < 2 ^ 31) {offset size : U32}
    {buffer : U64} (writable : Writable krealloc memory vnode offset.toNat size.toNat buffer) :
    ∃ next, (FileCall.vfsWrite offset size buffer).perform krealloc node ⟨vfs, memory⟩ =
        some (size, next) ∧
      Written node ⟨vfs, memory⟩ offset.toNat (bytesAt memory buffer size.toNat) next := by
  obtain ⟨next, performed, overwritten, after, afterLive, isSize⟩ :=
    vfsWrite_overwrites nonnull live writable
  refine ⟨next, performed, ⟨nonnull, after, afterLive, ?_⟩, overwritten⟩
  rw [isSize]
  exact max_lt small writable.small

/-- What a read that returns leaves. -/
structure Delivered (node : U64) (state : FileState) (offset count : Nat) (buffer : U64)
    (returned : U32) (next : FileState) : Prop where
  ready : FileReady node next
  amount : returned.toNat = min count ((fileContents node state).length - offset)
  received : bytesAt next.memory buffer returned.toNat =
    ((fileContents node state).drop offset).take count
  contents : fileContents node next = fileContents node state

/-- Copying part of a file to a buffer. -/
theorem delivered_memcpy {vfs : Vfs} {memory : Memory} (nonnull : node ≠ 0#64)
    (live : vfs.vnodes node = some vnode) (small : vnode.size.toNat < 2 ^ 31)
    {offset count : Nat} {buffer : U64} (readable : Readable vnode offset count buffer)
    {size : U32} (returned : size.toNat = min count (vnode.size.toNat - offset)) :
    Delivered node ⟨vfs, memory⟩ offset count buffer size
      ⟨vfs, memcpy memory buffer (vnode.data + BitVec.ofNat 64 offset) size.toNat⟩ := by
  obtain ⟨-, start, inRange, apart⟩ := readable
  have inside : ∀ position, position < vnode.size.toNat →
      ¬InRange buffer size.toNat (vnode.data + BitVec.ofNat 64 position) := by
    intro position below inBuffer
    refine apart _ (inRange_offset vnode.data (by omega) below) ?_
    unfold InRange at *
    omega
  have source : ∀ position, vnode.data + BitVec.ofNat 64 offset + BitVec.ofNat 64 position =
      vnode.data + BitVec.ofNat 64 (offset + position) := by
    intro position
    rw [BitVec.add_assoc, ← BitVec.ofNat_add]
  have copied : memcpy memory buffer (vnode.data + BitVec.ofNat 64 offset) size.toNat =
      copy memory memory size.toNat buffer (vnode.data + BitVec.ofNat 64 offset) := by
    refine memcpy_eq_copy (by omega) (fun _ _ => rfl) ?_
    intro position below
    rw [source]
    exact inside _ (by omega)
  refine ⟨⟨nonnull, vnode, live, small⟩, ?_, ?_, ?_⟩
  · rw [fileContents_live live, length_bytesAt, returned]
  · rw [fileContents_live live, copied]
    apply List.ext_getElem?
    intro position
    rw [bytesAt_getElem?, List.getElem?_take, List.getElem?_drop, bytesAt_getElem?]
    by_cases below : position < size.toNat
    · have inBuffer := inRange_offset buffer (by omega : position < 2 ^ 64) below
      have distance : buffer + BitVec.ofNat 64 position - buffer = BitVec.ofNat 64 position := by
        rw [BitVec.add_comm, BitVec.add_sub_cancel]
      rw [if_pos below, if_pos (by omega), if_pos (by omega)]
      change some (copy memory memory size.toNat buffer (vnode.data + BitVec.ofNat 64 offset)
        (buffer + BitVec.ofNat 64 position)) = _
      rw [copy_inside inBuffer, distance, source]
    · rw [if_neg below]
      split_ifs with inCount inFile
      · omega
      · rfl
      · rfl
  · rw [fileContents_live live, fileContents_live live, copied]
    apply bytesAt_congr
    intro position below
    exact copy_outside (inside position below)

theorem vfsRead_spec {vfs : Vfs} {memory : Memory} (nonnull : node ≠ 0#64)
    (live : vfs.vnodes node = some vnode) (small : vnode.size.toNat < 2 ^ 31) {offset size : U32}
    {buffer : U64} (readable : Readable vnode offset.toNat size.toNat buffer) :
    ∃ returned next, (FileCall.vfsRead offset size buffer).perform krealloc node ⟨vfs, memory⟩ =
        some (returned, next) ∧
      Delivered node ⟨vfs, memory⟩ offset.toNat size.toNat buffer returned next := by
  have notNull : ¬(node = 0#64 ∨ buffer = 0#64) := by
    rintro (isNull | isNull)
    · exact nonnull isNull
    · exact readable.nonnull isNull
  have start := readable.start
  have inRange := readable.small
  simp only [FileCall.perform, vfsRead, if_neg notNull, live, Option.bind_eq_bind,
    Option.bind_some, Option.map_some, setWidth_sum inRange,
    gt_size_iff (by omega : offset.toNat + size.toNat < 2 ^ 64), setWidth_offset]
  refine ⟨_, _, rfl, delivered_memcpy nonnull live small readable ?_⟩
  split_ifs with beyond
  · rw [BitVec.toNat_setWidth, BitVec.toNat_sub, BitVec.toNat_ofNat]
    omega
  · omega

/-! Handles -/

/-- `write` passes on what `vfs_write` returns, unless it is negative. -/
theorem Granted.write_passes {vfs : Vfs} {memory : Memory} {file : Hvfs.File}
    (granted : Granted vfs node vnode file Hvfs.writeOnly vnodePermsOwnerWrite)
    (live : vfs.vnodes node = some vnode) {buffer size : U64} {returned : U32}
    (nonnegative : returned.slt 0#32 = false) {next : FileState}
    (written : (FileCall.vfsWrite 0#32 (size.setWidth 32) buffer).perform krealloc node
      ⟨vfs, memory⟩ = some (returned, next)) :
    (FileCall.write file buffer size).perform krealloc node ⟨vfs, memory⟩ =
      some (returned, next) := by
  obtain ⟨opened, mode, isFile, permitted⟩ := granted
  have modeRight : ¬(file.mode ≠ Hvfs.writeOnly ∧ file.mode ≠ Hvfs.readWrite) := by
    rintro ⟨notWrite, notBoth⟩
    exact mode.elim notWrite notBoth
  simp only [FileCall.perform] at written ⊢
  obtain ⟨⟨result, vfs', memory'⟩, performed, same⟩ := Option.map_eq_some_iff.mp written
  obtain ⟨isResult, rfl⟩ := Prod.mk.inj same
  obtain rfl : result = returned := isResult
  simp [Hvfs.write, modeRight, opened, live, isFile, permitted, performed, nonnegative]

theorem Granted.write_perform {vfs : Vfs} {memory : Memory} {file : Hvfs.File}
    (granted : Granted vfs node vnode file Hvfs.writeOnly vnodePermsOwnerWrite)
    (live : vfs.vnodes node = some vnode) {buffer size : U64} (small : size.toNat < 2 ^ 31)
    {next : FileState}
    (written : (FileCall.vfsWrite 0#32 (size.setWidth 32) buffer).perform krealloc node
      ⟨vfs, memory⟩ = some (size.setWidth 32, next)) :
    (FileCall.write file buffer size).perform krealloc node ⟨vfs, memory⟩ =
      some (size.setWidth 32, next) := by
  refine granted.write_passes live ?_ written
  rw [BitVec.slt_eq_decide, decide_eq_false_iff_not, BitVec.toInt_eq_toNat_of_lt, BitVec.toInt_zero]
  · omega
  · rw [BitVec.toNat_setWidth]
    omega

theorem Granted.read_perform {vfs : Vfs} {memory : Memory} {file : Hvfs.File}
    (granted : Granted vfs node vnode file Hvfs.readOnly vnodePermsOwnerRead)
    (live : vfs.vnodes node = some vnode) (buffer size : U64) :
    (FileCall.read file buffer size).perform krealloc node ⟨vfs, memory⟩ =
      some ((if size > vnode.size then vnode.size else size).setWidth 32,
        ⟨vfs, memcpy memory buffer vnode.data
          (if size > vnode.size then vnode.size else size).toNat⟩) := by
  obtain ⟨opened, mode, isFile, permitted⟩ := granted
  have modeRight : ¬(file.mode ≠ Hvfs.readOnly ∧ file.mode ≠ Hvfs.readWrite) := by
    rintro ⟨notRead, notBoth⟩
    exact mode.elim notRead notBoth
  simp [FileCall.perform, Hvfs.read, modeRight, opened, live, isFile, permitted]

/-- What any call that returns leaves. -/
def FileCall.Outcome (node : U64) (state : FileState) (call : FileCall) (returned : U32)
    (next : FileState) : Prop :=
  if call.isWrite then
    returned.toNat = call.count ∧
      Written node state call.offset (bytesAt state.memory call.buffer call.count) next
  else
    Delivered node state call.offset call.count call.buffer returned next

theorem FileCall.Allowed.outcome {call : FileCall} (nonnull : node ≠ 0#64)
    (live : state.vfs.vnodes node = some vnode) (small : vnode.size.toNat < 2 ^ 31)
    (allowed : call.Allowed krealloc node state vnode) :
    ∃ returned next, call.perform krealloc node state = some (returned, next) ∧
      call.Outcome node state returned next := by
  obtain ⟨vfs, memory⟩ := state
  cases call with
  | vfsWrite offset size buffer =>
      obtain ⟨next, performed, written⟩ := vfsWrite_spec nonnull live small allowed
      exact ⟨size, next, performed, rfl, written⟩
  | vfsRead offset size buffer =>
      exact vfsRead_spec nonnull live small allowed
  | write file buffer size =>
      obtain ⟨granted, writable⟩ := allowed
      have short : size.toNat < 2 ^ 31 := by
        have bound := writable.small
        omega
      have same : (size.setWidth 32 : U32).toNat = size.toNat := by
        rw [BitVec.toNat_setWidth]
        omega
      obtain ⟨next, performed, written⟩ := @vfsWrite_spec krealloc node vnode vfs memory nonnull
        live small 0#32 (size.setWidth 32) buffer (by rw [same]; exact writable)
      rw [same] at written
      exact ⟨_, next, granted.write_perform live short performed, same, written⟩
  | read file buffer size =>
      obtain ⟨granted, readable⟩ := allowed
      have short := readable.small
      have returned : ((if size > vnode.size then vnode.size else size).setWidth 32 : U32).toNat =
          min size.toNat (vnode.size.toNat - 0) := by
        split_ifs with beyond
        · rw [gt_iff_lt, BitVec.lt_def] at beyond
          rw [BitVec.toNat_setWidth]
          omega
        · rw [gt_iff_lt, BitVec.lt_def] at beyond
          rw [BitVec.toNat_setWidth]
          omega
      have copied : (if size > vnode.size then vnode.size else size).toNat =
          ((if size > vnode.size then vnode.size else size).setWidth 32 : U32).toNat := by
        rw [returned]
        split_ifs with beyond
        · rw [gt_iff_lt, BitVec.lt_def] at beyond
          omega
        · rw [gt_iff_lt, BitVec.lt_def] at beyond
          omega
      have delivered := @delivered_memcpy node vnode vfs memory nonnull live small 0 size.toNat
        buffer readable _ returned
      rw [BitVec.add_zero, ← copied] at delivered
      exact ⟨_, _, granted.read_perform live buffer size, delivered⟩

/-- A step of the code is a step of the array. -/
theorem FileReady.step {event : FileEvent} (ready : FileReady node state)
    (step : FileStep krealloc node state event next) :
    FileReady node next ∧
      ArrayStep (fileContents node state) event (fileContents node next) := by
  obtain ⟨vnode, live, small⟩ := ready.live
  obtain ⟨found, foundLive, allowed⟩ := step.allowed
  rw [live] at foundLive
  cases foundLive
  obtain ⟨returned, reached, performed, outcome⟩ := allowed.outcome ready.nonnull live small
  rw [step.performed] at performed
  obtain ⟨rfl, rfl⟩ := Prod.mk.inj (Option.some.inj performed)
  unfold FileCall.Outcome at outcome
  unfold ArrayStep
  split_ifs at outcome ⊢ with isWrite
  · obtain ⟨amount, written⟩ := outcome
    refine ⟨written.ready, amount, by rw [step.given, length_bytesAt], ?_⟩
    rw [step.given]
    exact written.contents
  · refine ⟨outcome.ready, outcome.amount, ?_, outcome.contents⟩
    rw [step.received]
    exact outcome.received

/-- Both read paths do the same. -/
theorem hvfsRead_eq_vfsRead {vfs : Vfs} {memory : Memory} (nonnull : node ≠ 0#64)
    (live : vfs.vnodes node = some vnode) (small : vnode.size.toNat < 2 ^ 31)
    {file : Hvfs.File} (granted : Granted vfs node vnode file Hvfs.readOnly vnodePermsOwnerRead)
    {buffer size : U64} (bufferNonnull : buffer ≠ 0#64) (sizeSmall : size.toNat < 2 ^ 32) :
    Hvfs.read vfs memory (some file) buffer size =
      vfsRead vfs memory node 0#32 (size.setWidth 32) buffer := by
  have notNull : ¬(node = 0#64 ∨ buffer = 0#64) := by
    rintro (isNull | isNull)
    · exact nonnull isNull
    · exact bufferNonnull isNull
  have back : ((size.setWidth 32 : U32).setWidth 64 : U64) = size := by
    apply BitVec.eq_of_toNat_eq
    rw [BitVec.toNat_setWidth, BitVec.toNat_setWidth]
    omega
  have viaFile := @Granted.read_perform (fun memory _ _ => (0#64, memory)) node vnode vfs memory
    file granted live buffer size
  simp only [FileCall.perform] at viaFile
  obtain ⟨⟨returned, memory'⟩, performed, same⟩ := Option.map_eq_some_iff.mp viaFile
  obtain ⟨isReturned, isMemory⟩ := Prod.mk.inj same
  obtain rfl : returned = _ := isReturned
  obtain rfl : memory' = _ := congrArg FileState.memory isMemory
  rw [performed]
  have short : ∀ amount : U64, amount.toNat < 2 ^ 32 →
      (amount.setWidth 32 : U32).toNat = amount.toNat := by
    intro amount bound
    rw [BitVec.toNat_setWidth]
    omega
  simp only [vfsRead, if_neg notNull, live, Option.bind_eq_bind, Option.bind_some,
    BitVec.zero_add, back, BitVec.setWidth_zero, BitVec.sub_zero, BitVec.add_zero]
  split_ifs with beyond
  · rw [short vnode.size (by omega)]
  · rw [short size sizeSmall]

/-- Every run of calls on a file is a run of a byte array with the same values
returned and the same bytes read; every further call returns; and the two read
paths agree on every prefix. -/
theorem files_are_byte_arrays {krealloc : Krealloc} {node : U64} {start final : FileState}
    {events : List FileEvent} (ready : FileReady node start)
    (run : Run (FileStep krealloc node) start events final) :
    Run ArrayStep (fileContents node start) events (fileContents node final) ∧
      (∀ (call : FileCall) (vnode : Vnode), final.vfs.vnodes node = some vnode →
        call.Allowed krealloc node final vnode →
        ∃ event next, event.call = call ∧ FileStep krealloc node final event next) ∧
      ∀ (vnode : Vnode) (file : Hvfs.File) (buffer size : U64),
        final.vfs.vnodes node = some vnode →
        Granted final.vfs node vnode file Hvfs.readOnly vnodePermsOwnerRead →
        buffer ≠ 0#64 → size.toNat < 2 ^ 32 →
        Hvfs.read final.vfs final.memory (some file) buffer size =
          vfsRead final.vfs final.memory node 0#32 (size.setWidth 32) buffer := by
  have refined : FileReady node final ∧
      Run ArrayStep (fileContents node start) events (fileContents node final) := by
    induction run with
    | nil => exact ⟨ready, .nil⟩
    | snoc _ step inductionHypothesis =>
        obtain ⟨readyBefore, arrayRun⟩ := inductionHypothesis
        obtain ⟨readyAfter, arrayStep⟩ := readyBefore.step step
        exact ⟨readyAfter, arrayRun.snoc arrayStep⟩
  obtain ⟨⟨nonnull, found, foundLive, small⟩, arrayRun⟩ := refined
  refine ⟨arrayRun, ?_, ?_⟩
  · intro call vnode live allowed
    rw [foundLive] at live
    cases live
    obtain ⟨returned, next, performed, -⟩ := allowed.outcome nonnull foundLive small
    let event : FileEvent :=
      { call
        returned
        given := bytesAt final.memory call.buffer call.count
        received := bytesAt next.memory call.buffer returned.toNat }
    exact ⟨event, next, rfl, ⟨⟨found, foundLive, allowed⟩, performed, rfl, rfl⟩⟩
  · intro vnode file buffer size live granted bufferNonnull sizeSmall
    rw [foundLive] at live
    cases live
    exact hvfsRead_eq_vfsRead nonnull foundLive small granted bufferNonnull sizeSmall

/-- An empty file, and a byte to write. -/
def emptyFile : FileState where
  vfs :=
    { vnodes := fun node =>
        if node = 0x10#64 then some (newVnode 0x20#64 ⟨0x30#64, [charLowerA]⟩ .file 0x3#32) else none
      root := 0x20#64
      supply := [] }
  memory := fun address => if address = 0x2000#64 then charLowerX else 0#8

/-- `krealloc` of an empty file. -/
def firstBlock : Krealloc := fun memory _ _ => (0x1000#64, memory)

theorem files_are_byte_arrays_write : ∃ events final,
    Run (FileStep firstBlock 0x10#64) emptyFile events final ∧
      Run ArrayStep [] events (fileContents 0x10#64 final) ∧ events ≠ [] := by
  have apart : Separate 0x1000#64 1 0x2000#64 1 := by
    intro address inBlock inBuffer
    unfold InRange at inBlock inBuffer
    bv_omega
  have allowed : (FileCall.vfsWrite 0#32 1#32 0x2000#64).Allowed firstBlock 0x10#64 emptyFile
      (newVnode 0x20#64 ⟨0x30#64, [charLowerA]⟩ .file 0x3#32) := by
    refine ⟨by decide, Nat.zero_le _, by decide, ?_, ?_⟩
    · intro address inData
      exact absurd inData (Nat.not_lt_zero _)
    · intro _
      exact ⟨by decide, fun offset below => absurd below (Nat.not_lt_zero _), rfl, apart⟩
  have ready : FileReady 0x10#64 emptyFile := ⟨by decide, _, rfl, by decide⟩
  obtain ⟨event, final, -, step⟩ :=
    (files_are_byte_arrays ready .nil).2.1 _ _ rfl allowed
  have run := Run.nil.snoc step
  exact ⟨_, final, run, (files_are_byte_arrays ready run).1, by simp⟩

end Nekonix
