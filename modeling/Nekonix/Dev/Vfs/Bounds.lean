import Nekonix.Dev.Vfs
import Nekonix.Library.Span

/-!
# The bounds of `vfs_read` and `vfs_write`

Both form `offset + size` in 32 bits and compare it with a size of 64 bits, and
neither compares `offset` alone.  The arguments for which they stay inside the
data of the node follow from the two comparisons.
-/

namespace Nekonix

open FlatMemory

variable {vfs : Vfs} {memory : Memory} {node buffer data : U64} {vnode : Vnode} {offset size : U32}
  {krealloc : Krealloc}

/-! Reading -/

/-- How many bytes `vfs_read` copies. -/
def vfsReadCount (vnode : Vnode) (offset size : U32) : U32 :=
  if (offset + size).setWidth 64 > vnode.size then (vnode.size - offset.setWidth 64).setWidth 32
  else size

/-- The bytes that the `memcpy` of `vfs_read` reads. -/
def vfsReadSource (vnode : Vnode) (offset size : U32) : Span where
  start := vnode.data + offset.setWidth 64
  count := (vfsReadCount vnode offset size).toNat

theorem vfsRead_eq (nonnull : node ≠ 0#64) (bufferNonnull : buffer ≠ 0#64)
    (live : vfs.vnodes node = some vnode) :
    vfsRead vfs memory node offset size buffer =
      some (vfsReadCount vnode offset size,
        memcpy memory buffer (vfsReadSource vnode offset size).start
          (vfsReadSource vnode offset size).count) := by
  have notNull : ¬(node = 0#64 ∨ buffer = 0#64) := not_or.mpr ⟨nonnull, bufferNonnull⟩
  simp only [vfsRead, if_neg notNull, live, Option.bind_eq_bind, Option.bind_some]
  rfl

/-- `vfs_read` returns, as an `int`, how many of the wanted bytes there are, and copies
bytes of the data alone. -/
structure ReadInBounds (vfs : Vfs) (memory : Memory) (node : U64) (vnode : Vnode)
    (offset size : U32) (buffer : U64) : Prop where
  returns : ∃ returned next, vfsRead vfs memory node offset size buffer = some (returned, next) ∧
    returned.toInt = min size.toNat (vnode.size.toNat - offset.toNat)
  inside : (vfsReadSource vnode offset size).Within vnode.data vnode.size.toNat

/-- The range ends in the data, or 32 bits hold its end. -/
def RangeFits (vnode : Vnode) (offset size : U32) : Prop :=
  offset.toNat + size.toNat < 2 ^ 32 ∨ offset.toNat + size.toNat ≤ vnode.size.toNat

/-- The count is the right one exactly where the comparison of 32 bits is the one meant. -/
theorem vfsReadCount_eq_iff :
    (vfsReadCount vnode offset size).toNat = min size.toNat (vnode.size.toNat - offset.toNat) ∧
        (vfsReadSource vnode offset size).Within vnode.data vnode.size.toNat ↔
      offset.toNat ≤ vnode.size.toNat ∧ RangeFits vnode offset size := by
  have offsetNat : (offset.setWidth 64 : U64).toNat = offset.toNat := by
    rw [BitVec.toNat_setWidth]
    omega
  rw [vfsReadSource, Span.within_iff vnode.size.isLt, offsetNat]
  have sum : ((offset + size).setWidth 64 : U64).toNat =
      (offset.toNat + size.toNat) % 2 ^ 32 := by
    rw [BitVec.toNat_setWidth, BitVec.toNat_add]
    omega
  unfold RangeFits vfsReadCount
  split_ifs with beyond
  · rw [gt_iff_lt, BitVec.lt_def, sum] at beyond
    rw [BitVec.toNat_setWidth, BitVec.toNat_sub, offsetNat]
    omega
  · rw [gt_iff_lt, BitVec.lt_def, sum] at beyond
    omega

theorem readInBounds_iff (nonnull : node ≠ 0#64) (bufferNonnull : buffer ≠ 0#64)
    (live : vfs.vnodes node = some vnode) :
    ReadInBounds vfs memory node vnode offset size buffer ↔
      offset.toNat ≤ vnode.size.toNat ∧ RangeFits vnode offset size ∧
        min size.toNat (vnode.size.toNat - offset.toNat) < 2 ^ 31 := by
  rw [← and_assoc, ← vfsReadCount_eq_iff]
  have isInt := @BitVec.toInt_eq_toNat_cond 32 (vfsReadCount vnode offset size)
  have bound := (vfsReadCount vnode offset size).isLt
  constructor
  · rintro ⟨⟨returned, next, result, amount⟩, inside⟩
    rw [vfsRead_eq nonnull bufferNonnull live] at result
    cases result
    rw [amount] at isInt
    split_ifs at isInt
    · exact ⟨⟨by omega, inside⟩, by omega⟩
    · omega
  · rintro ⟨⟨amount, inside⟩, small⟩
    refine ⟨⟨_, _, vfsRead_eq nonnull bufferNonnull live, ?_⟩, inside⟩
    rw [isInt, if_pos (by omega), amount]

/-! Writing -/

/-- The bytes that the `memcpy` of `vfs_write` writes, if it comes to that. -/
def vfsWriteTarget (krealloc : Krealloc) (memory : Memory) (vnode : Vnode) (offset size : U32) :
    Option Span :=
  if (offset + size).setWidth 64 > vnode.size then
    let newData := (krealloc memory vnode.data ((offset + size).setWidth 64)).1
    if newData = 0#64 then none else some ⟨newData + offset.setWidth 64, size.toNat⟩
  else
    some ⟨vnode.data + offset.setWidth 64, size.toNat⟩

/-- `vfs_write` fails and leaves the node alone, or the node is large enough afterwards
and the bytes written are bytes of its data. -/
def WriteInBounds (krealloc : Krealloc) (vfs : Vfs) (memory : Memory) (node : U64) (vnode : Vnode)
    (offset size : U32) (buffer : U64) : Prop :=
  ∃ returned next after, vfsWrite krealloc vfs memory node offset size buffer =
      some (returned, next, after) ∧
    (returned = 1#32 ∧ next.vnodes node = some vnode ∧
        vfsWriteTarget krealloc memory vnode offset size = none ∨
      ∃ written span, next.vnodes node = some written ∧
        vfsWriteTarget krealloc memory vnode offset size = some span ∧
        offset.toNat + size.toNat ≤ written.size.toNat ∧
        span.Within written.data written.size.toNat)

/-- The data has to grow, as far as 32 bits tell, and cannot. -/
def GrowthFails (krealloc : Krealloc) (memory : Memory) (vnode : Vnode) (offset size : U32) :
    Prop :=
  (offset + size).setWidth 64 > vnode.size ∧
    (krealloc memory vnode.data ((offset + size).setWidth 64)).1 = 0#64

theorem writeInBounds_iff (nonnull : node ≠ 0#64) (bufferNonnull : buffer ≠ 0#64)
    (live : vfs.vnodes node = some vnode) :
    WriteInBounds krealloc vfs memory node vnode offset size buffer ↔
      RangeFits vnode offset size ∨ GrowthFails krealloc memory vnode offset size := by
  have notNull : ¬(node = 0#64 ∨ buffer = 0#64) := not_or.mpr ⟨nonnull, bufferNonnull⟩
  have sum : ((offset + size).setWidth 64 : U64).toNat =
      (offset.toNat + size.toNat) % 2 ^ 32 := by
    rw [BitVec.toNat_setWidth, BitVec.toNat_add]
    omega
  have offsetNat : (offset.setWidth 64 : U64).toNat = offset.toNat := by
    rw [BitVec.toNat_setWidth]
    omega
  unfold WriteInBounds GrowthFails RangeFits
  simp only [vfsWrite, vfsWriteTarget, if_neg notNull, live, Option.bind_eq_bind, Option.bind_some]
  by_cases grows : (offset + size).setWidth 64 > vnode.size
  · have larger := grows
    rw [gt_iff_lt, BitVec.lt_def, sum] at larger
    simp only [if_pos grows]
    by_cases failed : (krealloc memory vnode.data ((offset + size).setWidth 64)).1 = 0#64
    · simp only [if_pos failed]
      refine iff_of_true ⟨_, _, _, rfl, Or.inl ⟨rfl, live, trivial⟩⟩ (Or.inr ⟨grows, failed⟩)
    · simp only [if_neg failed]
      constructor
      · rintro ⟨returned, next, after, result, refused | ⟨written, span, isLive, -, enough, -⟩⟩
        · cases refused.2.2
        · cases result
          dsimp only [Vfs.store] at isLive
          rw [Function.update_self] at isLive
          cases isLive
          rw [sum] at enough
          left
          omega
      · rintro (fits | ⟨-, fails⟩)
        · refine ⟨_, _, _, rfl, Or.inr ⟨_, _, Function.update_self .., rfl, ?_, ?_⟩⟩
          · rw [sum]
            omega
          · dsimp only
            rw [Span.within_iff (BitVec.isLt _), sum, offsetNat]
            omega
        · exact absurd fails failed
  · have smaller := grows
    rw [gt_iff_lt, BitVec.lt_def, sum] at smaller
    simp only [if_neg grows]
    constructor
    · rintro ⟨returned, next, after, result, refused | ⟨written, span, isLive, -, enough, -⟩⟩
      · cases refused.2.2
      · cases result
        rw [live] at isLive
        cases isLive
        exact Or.inl (Or.inr enough)
    · rintro (fits | ⟨further, -⟩)
      · refine ⟨_, _, _, rfl, Or.inr ⟨_, _, live, rfl, by omega, ?_⟩⟩
        rw [Span.within_iff vnode.size.isLt, offsetNat]
        omega
      · exact absurd further grows

/-- The arguments for which reading and writing stay in bounds. -/
theorem vfs_stays_in_bounds_iff (nonnull : node ≠ 0#64) (bufferNonnull : buffer ≠ 0#64)
    (live : vfs.vnodes node = some vnode) :
    (ReadInBounds vfs memory node vnode offset size buffer ↔
      offset.toNat ≤ vnode.size.toNat ∧ RangeFits vnode offset size ∧
        min size.toNat (vnode.size.toNat - offset.toNat) < 2 ^ 31) ∧
    (WriteInBounds krealloc vfs memory node vnode offset size buffer ↔
      RangeFits vnode offset size ∨ GrowthFails krealloc memory vnode offset size) :=
  ⟨readInBounds_iff nonnull bufferNonnull live, writeInBounds_iff nonnull bufferNonnull live⟩

/-- A file of four bytes. -/
def fourBytes : Vnode :=
  { newVnode 0x20#64 ⟨0x30#64, [charLowerA]⟩ .file vnodePermsOwnerRead with
    size := 4#64
    data := 0x1000#64 }

def fourBytesTree : Vfs where
  vnodes := fun node => if node = 0x10#64 then some fourBytes else none
  root := 0x20#64
  supply := []

/-- `krealloc` to a block elsewhere. -/
def firstFree : Krealloc := fun memory _ _ => (0x3000#64, memory)

theorem fourBytes_live : fourBytesTree.vnodes 0x10#64 = some fourBytes := rfl

/-- Three bytes from the second one on, and one byte behind the last. -/
theorem vfs_stays_in_bounds_iff_four :
    ReadInBounds fourBytesTree (fun _ => 0#8) 0x10#64 fourBytes 1#32 3#32 0x2000#64 ∧
      WriteInBounds firstFree fourBytesTree (fun _ => 0#8) 0x10#64 fourBytes 4#32 1#32 0x2000#64 := by
  have bounds := fun offset size => @vfs_stays_in_bounds_iff fourBytesTree (fun _ => 0#8) 0x10#64
    0x2000#64 fourBytes offset size firstFree (by decide) (by decide) fourBytes_live
  refine ⟨(bounds 1#32 3#32).1.mpr ⟨by decide, Or.inl (by decide), by decide⟩, ?_⟩
  exact (bounds 4#32 1#32).2.mpr (Or.inl (Or.inl (by decide)))

/-- A read that starts behind the end copies nearly 4 GiB from there. -/
theorem vfs_read_behind_end : ¬∀ (vfs : Vfs) (memory : Memory) (node : U64) (vnode : Vnode)
    (offset size : U32) (buffer : U64) (krealloc : Krealloc), node ≠ 0#64 → buffer ≠ 0#64 →
    vfs.vnodes node = some vnode →
    ReadInBounds vfs memory node vnode offset size buffer ∧
      WriteInBounds krealloc vfs memory node vnode offset size buffer := by
  intro always
  obtain ⟨read, -⟩ := always fourBytesTree (fun _ => 0#8) 0x10#64 fourBytes 5#32 1#32 0x2000#64
    (fun memory _ _ => (0#64, memory)) (by decide) (by decide) fourBytes_live
  have start := ((readInBounds_iff (by decide) (by decide) fourBytes_live).mp read).1
  exact absurd start (by decide)

end Nekonix
