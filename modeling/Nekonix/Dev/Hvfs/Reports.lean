import Nekonix.Dev.Hvfs.Files

/-!
# What `write` reports

`vfs_write` returns 1 for a failure and a count for a success, and `write` takes a
negative value for a failure.  So a file that cannot grow is reported as one byte written.
-/

namespace Nekonix

open FlatMemory

/-- A returned count is of bytes of the buffer that are stored, and a file that could not
grow is reported and left alone. -/
structure WriteReports (krealloc : Krealloc) (node : U64) (state : FileState) (vnode : Vnode)
    (buffer size : U64) (returned : U32) (next : FileState) : Prop where
  stored : 0 ≤ returned.toInt → buffer ≠ 0#64 ∧ returned.toNat ≤ size.toNat ∧
    Overwritten (fileContents node state) 0 (bytesAt state.memory buffer returned.toNat)
      (fileContents node next)
  failed : buffer ≠ 0#64 → vnode.size < size →
    (krealloc state.memory vnode.data size).1 = 0#64 →
    returned = Hvfs.failure ∧ next.vfs.vnodes node = some vnode

variable {krealloc : Krealloc} {vfs : Vfs} {memory : Memory} {node : U64} {vnode : Vnode}
  {file : Hvfs.File} {buffer size : U64}

/-- The vnode of a handle that is permitted something is not NULL. -/
theorem Granted.nonnull {mode perms : U32} (granted : Granted vfs node vnode file mode perms) :
    node ≠ 0#64 := by
  rintro rfl
  have permitted := granted.permitted
  rw [Hvfs.permissionCheck, if_pos rfl] at permitted
  cases permitted

theorem ofNat_setWidth_of_small (small : size.toNat < 2 ^ 31) :
    (size.setWidth 32 : U32).toNat = size.toNat ∧
      (0#32 + size.setWidth 32).setWidth 64 = size := by
  constructor <;> bv_omega

/-- `vfs_write` returns 1 and leaves the vnodes alone without a buffer, or if the file
cannot grow. -/
theorem vfsWrite_refused (live : vfs.vnodes node = some vnode) (small : size.toNat < 2 ^ 31)
    (refused : buffer = 0#64 ∨ vnode.size < size ∧ (krealloc memory vnode.data size).1 = 0#64) :
    ∃ after, (FileCall.vfsWrite 0#32 (size.setWidth 32) buffer).perform krealloc node
      ⟨vfs, memory⟩ = some (1#32, ⟨vfs, after⟩) := by
  have isSize := (ofNat_setWidth_of_small small).2
  simp only [FileCall.perform, vfsWrite]
  by_cases isNull : node = 0#64 ∨ buffer = 0#64
  · exact ⟨memory, by rw [if_pos isNull]; rfl⟩
  · rcases refused with noBuffer | ⟨larger, fails⟩
    · exact absurd (Or.inr noBuffer) isNull
    · rw [if_neg isNull, live]
      simp only [Option.bind_eq_bind, Option.bind_some, isSize, if_pos larger, if_pos fails]
      exact ⟨_, rfl⟩

/-- `write` reports what it did exactly if there is a buffer and the file is large enough
or `krealloc` succeeds. -/
theorem write_reports_iff (live : vfs.vnodes node = some vnode)
    (granted : Granted vfs node vnode file Hvfs.writeOnly vnodePermsOwnerWrite)
    (small : size.toNat < 2 ^ 31)
    (apart : Separate vnode.data vnode.size.toNat buffer size.toNat)
    (reallocates : (krealloc memory vnode.data size).1 ≠ 0#64 →
      Kreallocated memory vnode.data vnode.size.toNat size.toNat buffer size.toNat
        (krealloc memory vnode.data size)) :
    (∃ returned next, (FileCall.write file buffer size).perform krealloc node ⟨vfs, memory⟩ =
        some (returned, next) ∧
      WriteReports krealloc node ⟨vfs, memory⟩ vnode buffer size returned next) ↔
    buffer ≠ 0#64 ∧ (size ≤ vnode.size ∨ (krealloc memory vnode.data size).1 ≠ 0#64) := by
  obtain ⟨sizeNat, isSize⟩ := ofNat_setWidth_of_small small
  constructor
  · rintro ⟨returned, next, performed, reports⟩
    by_contra refused
    have refused' : buffer = 0#64 ∨
        vnode.size < size ∧ (krealloc memory vnode.data size).1 = 0#64 := by
      by_cases noBuffer : buffer = 0#64
      · exact .inl noBuffer
      · refine .inr ?_
        rw [not_and, not_or, not_not, BitVec.not_le] at refused
        exact refused noBuffer
    obtain ⟨after, written⟩ := vfsWrite_refused live small refused'
    rw [granted.write_passes live rfl written] at performed
    cases performed
    rcases refused' with noBuffer | ⟨larger, fails⟩
    · exact (reports.stored (by decide)).1 noBuffer
    · have stored := reports.stored (by decide)
      exact absurd (reports.failed stored.1 larger fails).1 (by decide)
  · rintro ⟨buffered, enough⟩
    have writable : Writable krealloc memory vnode (0#32 : U32).toNat
        (size.setWidth 32 : U32).toNat buffer := by
      rw [sizeNat]
      refine ⟨buffered, Nat.zero_le _, ?_, apart, ?_⟩
      · simpa using small
      · intro larger
        have ofSize : BitVec.ofNat 64 ((0#32 : U32).toNat + size.toNat) = size := by simp
        rw [ofSize]
        simpa using reallocates (enough.resolve_left (by bv_omega))
    obtain ⟨next, written, overwritten, -⟩ :=
      vfsWrite_overwrites granted.nonnull live writable
    refine ⟨_, next, granted.write_perform live small written, ?_, ?_⟩
    · intro _
      refine ⟨buffered, sizeNat.le, overwritten⟩
    · intro _ larger fails
      exact absurd fails (enough.resolve_left (by bv_omega))

/-- The vnode of `emptyFile`. -/
def emptyVnode : Vnode := newVnode 0x20#64 ⟨0x30#64, [charLowerA]⟩ .file 0x3#32

def emptyHandle : Hvfs.File := { uid := 0#32, vnode := 0x10#64, mode := Hvfs.writeOnly }

theorem emptyHandle_granted : Granted emptyFile.vfs 0x10#64 emptyVnode emptyHandle
    Hvfs.writeOnly vnodePermsOwnerWrite :=
  ⟨rfl, .inl rfl, rfl, by decide⟩

/-- A byte is written into a new block. -/
theorem write_reports_iff_grows : ∃ returned next,
    (FileCall.write emptyHandle 0x2000#64 1#64).perform firstBlock 0x10#64 emptyFile =
        some (returned, next) ∧
      WriteReports firstBlock 0x10#64 emptyFile emptyVnode 0x2000#64 1#64 returned next := by
  have apart : Separate 0x1000#64 1 0x2000#64 1 := by
    intro address inBlock inBuffer
    unfold InRange at inBlock inBuffer
    bv_omega
  refine (write_reports_iff rfl emptyHandle_granted (by decide) ?_ fun _ => ?_).mpr
    ⟨by decide, .inr (by decide)⟩
  · intro address inData
    exact absurd inData (Nat.not_lt_zero _)
  · exact ⟨by decide, fun offset below => absurd below (Nat.not_lt_zero _), rfl, apart⟩

/-- `krealloc` without memory. -/
def noBlock : Krealloc := fun memory _ _ => (0#64, memory)

/-- `write` returns 1 for a file that could not grow. -/
theorem write_hides_failure : ¬∀ (krealloc : Krealloc) (state : FileState) (node : U64)
    (vnode : Vnode) (file : Hvfs.File) (buffer size : U64),
    state.vfs.vnodes node = some vnode →
    Granted state.vfs node vnode file Hvfs.writeOnly vnodePermsOwnerWrite →
    buffer ≠ 0#64 → size.toNat < 2 ^ 31 →
    Separate vnode.data vnode.size.toNat buffer size.toNat →
    ((krealloc state.memory vnode.data size).1 ≠ 0#64 →
      Kreallocated state.memory vnode.data vnode.size.toNat size.toNat buffer size.toNat
        (krealloc state.memory vnode.data size)) →
    ∃ returned next, (FileCall.write file buffer size).perform krealloc node state =
        some (returned, next) ∧
      WriteReports krealloc node state vnode buffer size returned next := by
  intro always
  obtain ⟨returned, next, performed, reports⟩ := always noBlock emptyFile 0x10#64 emptyVnode
    emptyHandle 0x2000#64 1#64 rfl emptyHandle_granted (by decide) (by decide)
    (fun address inData => absurd inData (Nat.not_lt_zero _)) (fun succeeds => absurd rfl succeeds)
  obtain ⟨after, written⟩ := @vfsWrite_refused noBlock emptyFile.vfs emptyFile.memory 0x10#64
    emptyVnode 0x2000#64 1#64 rfl (by decide) (.inr ⟨by decide, rfl⟩)
  rw [emptyHandle_granted.write_passes rfl rfl written] at performed
  cases performed
  exact absurd (reports.failed (by decide) (by decide) rfl).1 (by decide)

end Nekonix
