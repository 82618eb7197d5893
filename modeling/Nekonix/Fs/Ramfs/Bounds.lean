import Nekonix.Dev.Hvfs
import Nekonix.Dev.Vfs.Bounds
import Nekonix.Dev.Vfs.Effects
import Nekonix.Fs.Ramfs.Entries

/-!
# Headers and files inside the archive

`ramfs_parse` compares the offset of a header with the size of the archive, and
nothing else.  A header that begins inside may end outside, and so may a file.
-/

namespace Nekonix

open FlatMemory Loop Relation

variable {data size parent : U64} {before middle after : Vfs} {ramfs next : Ramfs}

/-! Files and what reads of them read -/

/-- The bytes that the `memcpy` of `read` reads. -/
def Hvfs.readSource (vnode : Vnode) (size : U64) : Span where
  start := vnode.data
  count := (if size > vnode.size then vnode.size else size).toNat

/-- The file lies in the archive, and so does what a read from its start reads. -/
structure Vnode.InArchive (data size : U64) (vnode : Vnode) : Prop where
  content : (Span.mk vnode.data vnode.size.toNat).Within data size.toNat
  read : ∀ count : U64, (Hvfs.readSource vnode count).Within data size.toNat
  vfsRead : ∀ count : U32, (vfsReadSource vnode 0#32 count).Within data size.toNat

theorem Span.Within.shorter {start : U64} {count part length : Nat}
    (within : (Span.mk start count).Within data length) (shorter : part ≤ count) :
    (Span.mk start part).Within data length :=
  fun position below => within position (Nat.lt_of_lt_of_le below shorter)

theorem Vnode.inArchive_of_content {vnode : Vnode}
    (content : (Span.mk vnode.data vnode.size.toNat).Within data size.toNat) :
    vnode.InArchive data size := by
  refine ⟨content, ?_, ?_⟩
  · intro count
    apply Span.Within.shorter content
    split_ifs with beyond
    · exact Nat.le_refl _
    · exact Nat.le_of_not_lt beyond
  · intro count
    have atStart : vnode.data + (0#32).setWidth 64 = vnode.data := BitVec.add_zero _
    rw [vfsReadSource, atStart]
    apply Span.Within.shorter content
    unfold vfsReadCount
    split_ifs with beyond
    · bv_omega
    · bv_omega

/-- Each file is one of before, or lies in the archive. -/
def FilesInArchive (data size : U64) (before after : Vfs) : Prop :=
  ∀ node vnode, after.vnodes node = some vnode → vnode.type = .file →
    vnode.InArchive data size ∨ ∃ old, before.vnodes node = some old ∧
      old.type = .file ∧ old.data = vnode.data ∧ old.size = vnode.size

namespace FilesInArchive

theorem refl (vfs : Vfs) : FilesInArchive data size vfs vfs :=
  fun _ vnode live file => .inr ⟨vnode, live, file, rfl, rfl⟩

theorem trans (first : FilesInArchive data size before middle)
    (second : FilesInArchive data size middle after) : FilesInArchive data size before after := by
  intro node vnode live file
  rcases second node vnode live file with inside | ⟨old, oldLive, oldFile, sameData, sameSize⟩
  · exact .inl inside
  · rcases first node old oldLive oldFile with inside | ⟨older, olderLive, olderFile, data, size⟩
    · have content := inside.content
      rw [sameData, sameSize] at content
      exact .inl (Vnode.inArchive_of_content content)
    · exact .inr ⟨older, olderLive, olderFile, data.trans sameData, size.trans sameSize⟩

end FilesInArchive

/-- A vnode is the one made, or has the type and the data it had. -/
theorem vfsCreate_content {name : Option (List U8)} {type : VnodeType} {perms error : U32}
    {made node : U64} {vnode : Vnode}
    (result : vfsCreate before parent name type perms = some (error, made, after))
    (live : after.vnodes node = some vnode) :
    (error = 0#32 ∧ node = made ∧ vnode.type = type) ∨
      ∃ old, before.vnodes node = some old ∧ old.type = vnode.type ∧ old.data = vnode.data ∧
        old.size = vnode.size := by
  rcases vfsCreate_cases result with ⟨isMade, created⟩ | ⟨-, refused | ⟨block, unnamed⟩⟩
  · obtain ⟨name, supply, holder, found, changed, -, -, holding, relinked, vnodes, -, -⟩ :=
      created.linked
    have same : changed.type = found.type ∧ changed.data = found.data ∧
        changed.size = found.size := by
      rcases relinked with rfl | rfl <;> exact ⟨rfl, rfl, rfl⟩
    rw [vnodes] at live
    have stored : ∃ old, (before.store made (newVnode parent name type perms)).vnodes node =
        some old ∧ old.type = vnode.type ∧ old.data = vnode.data ∧ old.size = vnode.size := by
      rcases Vfs.store_live live with ⟨rfl, rfl⟩ | ⟨-, other⟩
      · exact ⟨found, holding, same.1.symm, same.2.1.symm, same.2.2.symm⟩
      · exact ⟨vnode, other, rfl, rfl, rfl⟩
    obtain ⟨old, oldLive, sameType, sameData, sameSize⟩ := stored
    rcases Vfs.store_live oldLive with ⟨rfl, rfl⟩ | ⟨-, other⟩
    · exact .inl ⟨isMade, rfl, sameType.symm⟩
    · exact .inr ⟨old, other, sameType, sameData, sameSize⟩
  · rw [refused.vnodes] at live
    exact .inr ⟨vnode, live, rfl, rfl, rfl⟩
  · rw [unnamed.vnodes] at live
    exact .inr ⟨vnode, (Vfs.kfree_live live).2, rfl, rfl, rfl⟩

/-! One entry -/

/-- The loop over the components of a name makes no files. -/
theorem ramfsParseComponents_files {isDirectory : Bool} {mode : U32} {fuel : Nat}
    {token parent : U64} {stop : Option ComponentsEnd}
    (result : ramfsParseComponents isDirectory mode fuel ramfs token parent = some (stop, next)) :
    FilesInArchive data size ramfs.vfs next.vfs := by
  induction fuel generalizing ramfs token parent with
  | zero => cases result
  | succ fuel inductionHypothesis =>
      rw [ramfsParseComponents] at result
      by_cases ends : token = 0#64
      · rw [if_pos ends] at result
        cases result
        exact .refl _
      rw [if_neg ends] at result
      dsimp only at result
      rw [Option.bind_eq_bind, Option.bind_eq_some_iff] at result
      obtain ⟨subdir, -, result⟩ := result
      by_cases absent : subdir = 0#64
      · rw [if_pos absent] at result
        by_cases directory : isDirectory = true
        · rw [if_pos directory, Option.bind_eq_bind, Option.bind_eq_some_iff] at result
          obtain ⟨⟨error, made, vfs⟩, created, result⟩ := result
          have step : FilesInArchive data size ramfs.vfs vfs := by
            intro node vnode live file
            rcases vfsCreate_content created live with ⟨-, -, isDirectory⟩ | ⟨old, oldLive, same⟩
            · rw [isDirectory] at file
              cases file
            · exact .inr ⟨old, oldLive, same.1.trans file, same.2⟩
          dsimp only at result
          split_ifs at result with failed
          · cases result
            exact step
          · exact step.trans (inductionHypothesis result)
        · rw [if_neg directory] at result
          cases result
          exact .refl _
      · rw [if_neg absent] at result
        have rest : FilesInArchive data size (ramfs.strtok 0#64).2.vfs next.vfs :=
          inductionHypothesis result
        exact rest

theorem ramfsMakeFile_files {header : U64} {fileSize mode error : U32} {stop : ComponentsEnd}
    (inside : (Span.mk (header + ustarHeaderSize.setWidth 64)
      (fileSize.setWidth 64 : U64).toNat).Within data size.toNat)
    (result : ramfsMakeFile ramfs header fileSize mode stop = some (error, next)) :
    FilesInArchive data size ramfs.vfs next.vfs := by
  unfold ramfsMakeFile at result
  dsimp only at result
  split_ifs at result with named
  · simp only [Option.bind_eq_bind] at result
    rw [Option.bind_eq_some_iff] at result
    obtain ⟨⟨code, made, vfs⟩, created, result⟩ := result
    dsimp only at result
    split_ifs at result with failed
    · cases result
      intro node vnode live file
      rcases vfsCreate_content created live with ⟨isMade, -⟩ | ⟨old, oldLive, same⟩
      · exact absurd isMade failed
      · exact .inr ⟨old, oldLive, same.1.trans file, same.2⟩
    · rw [Option.bind_eq_some_iff] at result
      obtain ⟨filled, -, result⟩ := result
      cases result
      intro node vnode live file
      rcases Vfs.store_live live with ⟨-, rfl⟩ | ⟨other, live⟩
      · exact .inl (Vnode.inArchive_of_content inside)
      · rcases vfsCreate_content created live with ⟨-, here, -⟩ | ⟨old, oldLive, same⟩
        · exact absurd here other
        · exact .inr ⟨old, oldLive, same.1.trans file, same.2⟩
  · cases result
    exact .refl _

/-- A file's contents lie between its header and the end of the archive. -/
def ContentFits (size offset : U64) (fileSize : U32) : Prop :=
  offset.toNat + 512 + fileSize.toNat ≤ size.toNat

instance (size offset : U64) (fileSize : U32) : Decidable (ContentFits size offset fileSize) :=
  inferInstanceAs (Decidable (_ ≤ _))

theorem contentFits_within {offset : U64} {fileSize : U32} (fits : ContentFits size offset fileSize) :
    (Span.mk (data + offset + ustarHeaderSize.setWidth 64)
      (fileSize.setWidth 64 : U64).toNat).Within data size.toNat := by
  have bound := size.isLt
  unfold ContentFits at fits
  have width : (fileSize.setWidth 64 : U64).toNat = fileSize.toNat := by
    rw [BitVec.toNat_setWidth]
    omega
  have behind : (offset + ustarHeaderSize.setWidth 64).toNat = offset.toNat + 512 := by
    rw [BitVec.toNat_add]
    change (offset.toNat + 512) % 2 ^ 64 = _
    omega
  rw [BitVec.add_assoc, Span.within_iff size.isLt, behind, width]
  exact .inr fits

theorem ramfsEntry_files {offset : U64} {failed : Bool}
    (fits : ramfsIsDirectory ramfs.memory (data + offset) = false →
      ContentFits size offset (ramfsFileSize ramfs.memory (data + offset)))
    (result : ramfsEntry parent ramfs (data + offset) = some (failed, next)) :
    FilesInArchive data size ramfs.vfs next.vfs := by
  unfold ramfsEntry at result
  dsimp only at result
  rw [Option.bind_eq_bind, Option.bind_eq_some_iff] at result
  obtain ⟨⟨stop, middle⟩, parsed, result⟩ := result
  have components := @ramfsParseComponents_files data size _ _ _ _ _ _ _ _ parsed
  rw [Ramfs.strtok_vfs] at components
  cases stop with
  | none =>
      cases result
      exact components
  | some stop =>
      dsimp only at result
      by_cases directory : ramfsIsDirectory ramfs.memory (data + offset) = true
      · rw [if_pos directory] at result
        cases result
        exact components
      · rw [if_neg directory, Option.bind_eq_bind, Option.bind_eq_some_iff] at result
        obtain ⟨⟨error, last⟩, made, result⟩ := result
        cases result
        exact components.trans (ramfsMakeFile_files
          (contentFits_within (fits (Bool.eq_false_iff.mpr directory))) made)

/-! The loop -/

/-- The header ends in the archive, or a file of the entry does. -/
structure EntryFits (data size : U64) (head : Ramfs × U64) : Prop where
  whole : 512 ∣ size.toNat ∨ head.2.toNat / 512 < size.toNat / 512
  content : head.1.memory (data + head.2) ≠ 0#8 →
    ¬RamfsSkips head.1.memory (ramfsName head.1.memory (data + head.2)) →
    ramfsIsDirectory head.1.memory (data + head.2) = false →
    ContentFits size head.2 (ramfsFileSize head.1.memory (data + head.2))

theorem ramfsNext_aligned {memory : Memory} {offset : U64} (aligned : 512 ∣ offset.toNat) :
    512 ∣ (ramfsNext memory data offset).toNat := by
  rw [ramfsNext, BitVec.toNat_add, BitVec.toNat_setWidth, ustarEntrySize_toNat]
  omega

theorem reaches_aligned {head : Ramfs × U64}
    (reached : Reaches (ramfsTurn data size parent) (ramfs, 0#64) head) : 512 ∣ head.2.toNat := by
  induction reached with
  | refl => exact Nat.dvd_zero 512
  | tail _ turn inductionHypothesis =>
      rw [(ramfsTurn_next turn).2.2.1]
      exact ramfsNext_aligned inductionHypothesis

theorem header_within_iff {offset : U64} (aligned : 512 ∣ offset.toNat) (inside : offset < size) :
    (Span.mk (data + offset) 512).Within data size.toNat ↔
      512 ∣ size.toNat ∨ offset.toNat / 512 < size.toNat / 512 := by
  rw [Span.within_iff size.isLt]
  rw [BitVec.lt_def] at inside
  omega

theorem ramfsTurn_files {head after : Ramfs × U64}
    (fits : head.2 < size → EntryFits data size head)
    (turn : ramfsTurn data size parent head = .next after) :
    FilesInArchive data size head.1.vfs after.1.vfs := by
  obtain ⟨inside, named, -, ⟨-, same⟩ | ⟨kept, made⟩⟩ := ramfsTurn_next turn
  · rw [same]
    exact .refl _
  · exact ramfsEntry_files ((fits inside).content named kept) made

theorem reaches_files {head : Ramfs × U64}
    (fits : ∀ head, Reaches (ramfsTurn data size parent) (ramfs, 0#64) head → head.2 < size →
      EntryFits data size head)
    (reached : Reaches (ramfsTurn data size parent) (ramfs, 0#64) head) :
    FilesInArchive data size ramfs.vfs head.1.vfs := by
  induction reached with
  | refl => exact .refl _
  | tail reached turn inductionHypothesis =>
      exact inductionHypothesis.trans (ramfsTurn_files (fits _ reached) turn)

/-- What `ramfs_parse` reads and makes lies in the archive. -/
structure InArchiveRun (data size parent : U64) (ramfs : Ramfs) : Prop where
  headers : ∀ head, Reaches (ramfsTurn data size parent) (ramfs, 0#64) head → head.2 < size →
    (Span.mk (data + head.2) 512).Within data size.toNat
  files : ∀ head, Reaches (ramfsTurn data size parent) (ramfs, 0#64) head →
    FilesInArchive data size ramfs.vfs head.1.vfs
  mounted : ∀ error next, ramfsParse data size ramfs parent = some (error, next) →
    FilesInArchive data size ramfs.vfs next.vfs

/-- A file `a` of one byte. -/
def oneByteArchive : Memory := fun address =>
  if address = 0x100000#64 then charLowerA
  else if address = 0x10007c#64 then 0x31#8
  else 0#8

/-- The root at `0x10`, and two blocks to come. -/
def oneByteRamfs : Ramfs where
  vfs := ⟨Function.update (fun _ => none) 0x10#64 (some (rootVnode ⟨0x20#64, rootName⟩)), 0x10#64,
    [0x30#64, 0x40#64]⟩
  memory := oneByteArchive
  last := 0#64
  calls := []

end Nekonix
