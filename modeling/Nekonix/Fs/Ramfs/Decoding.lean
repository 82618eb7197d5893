import Nekonix.Fs.Ramfs.Unpacking
import Nekonix.Lib.Strtok

/-!
# One entry of an archive

The components of a name but the last lead to a directory that is there.  A node is made of the
last one, with what the header says.
-/

namespace Nekonix

open FlatMemory LinkedList Loop

variable {ramfs next : Ramfs} {data size header parent holder s str made copy : U64}
  {text name : List U8} {before : List (List U8)} {isDirectory : Bool} {mode : U32}
  {entry : ArchiveEntry} {entries : List ArchiveEntry} {nodeOf : List (List U8) → U64}

/-! Along the components of a name -/

/-- Only bytes of a field have been written. -/
structure Ramfs.Tokenizes (field : U64) (width : Nat) (ramfs next : Ramfs) : Prop where
  vfs : next.vfs = ramfs.vfs
  outside : ∀ address, ¬InRange field width address → next.memory address = ramfs.memory address

/-- The loop over the components follows those that are there. -/
theorem ramfsParseComponents_walks (split : Tokens [charSlash] text (before ++ [name]))
    (string : StringAt ramfs.memory s text) (nonnull : s ≠ 0#64)
    (noWrap : s.toNat + text.length < 2 ^ 64)
    (current : (if str = 0#64 then ramfs.last else str) = s)
    (found : descend ramfs.vfs parent before = some holder) (holderNonnull : holder ≠ 0#64)
    (fuel : Nat) :
    ∃ next token rest, ramfs.Tokenizes s text.length next ∧ TokenCut next token name rest ∧
      (∀ c ∈ rest, ([charSlash] : List U8).contains c = true) ∧
      (∀ c ∈ name, ([charSlash] : List U8).contains c = false) ∧
      ramfsParseComponents isDirectory mode (before.length + fuel) (ramfs.strtok str).2
          (ramfs.strtok str).1 parent =
        ramfsParseComponents isDirectory mode fuel next token holder := by
  induction before generalizing ramfs str s text parent with
  | nil =>
      cases split with
      | token first further =>
          cases further with
          | done slashes =>
              have cut := tokenCut first string nonnull noWrap current
              have tokenized := strtok_token first string nonnull noWrap current
              cases found
              refine ⟨(ramfs.strtok str).2, _, _, ⟨rfl, tokenized.outside⟩, cut, slashes,
                first.kept, ?_⟩
              rw [List.length_nil, Nat.zero_add]
  | cons component before inductionHypothesis =>
      cases split with
      | @token _ gap _ rest _ first further =>
          have cut := tokenCut first string nonnull noWrap current
          have tokenized := strtok_token first string nonnull noWrap current
          have position := tokenized.position first noWrap
          have shorter := first.tail_shorter
          rw [descend, Option.bind_eq_bind, Option.bind_eq_some_iff] at found
          obtain ⟨subdir, searched, found⟩ := found
          by_cases absent : subdir = 0#64
          · rw [if_pos absent] at found
            cases found
            exact absurd rfl holderNonnull
          rw [if_neg absent] at found
          obtain ⟨next, token, behind, tokenizes, lastCut, slashes, kept, walked⟩ :=
            @inductionHypothesis (ramfs.strtok str).2 subdir _ 0#64 _ further cut.waiting
              cut.waitingNonnull cut.waitingRoom (if_pos rfl) found
          refine ⟨next, token, behind, ⟨tokenizes.vfs, ?_⟩, lastCut, slashes, kept, ?_⟩
          · intro address outside
            refine (tokenizes.outside address fun within => outside ?_).trans
              (tokenized.outside address outside)
            change InRange (strtok ramfs.memory ramfs.last str [charSlash]).2.2 _ _ at within
            unfold InRange at within ⊢
            bv_omega
          · rw [List.length_cons, Nat.add_right_comm, ramfsParseComponents, if_neg cut.nonnull,
              cut.name]
            dsimp only
            rw [Ramfs.strtok_vfs, searched, Option.bind_eq_bind, Option.bind_some, if_neg absent]
            exact walked

/-! The last component -/

/-- The vnode of an entry whose header lies at `header`. -/
def entryVnode (header parent : U64) (name : HeapString) (entry : ArchiveEntry) : Vnode :=
  let vnode := newVnode parent name entry.type (ramfsPermissions (BitVec.ofNat 32 entry.mode))
  match entry.type with
  | .directory => vnode
  | .file =>
      { vnode with
        data := header + ustarHeaderSize.setWidth 64
        size := (BitVec.ofNat 32 entry.content.length).setWidth 64 }

theorem entryVnode_child (header parent : U64) (name : HeapString) (entry : ArchiveEntry) :
    (entryVnode header parent name entry).child = 0#64 := by
  unfold entryVnode
  cases entry.type <;> rfl

theorem entryVnode_next (header parent : U64) (name : HeapString) (entry : ArchiveEntry) :
    (entryVnode header parent name entry).next = 0#64 := by
  unfold entryVnode
  cases entry.type <;> rfl

/-- A directory is made of the last component. -/
theorem ramfsParseComponents_makes {token : U64} {rest : List U8} {vfs : Vfs}
    (cut : TokenCut ramfs token name rest)
    (slashes : ∀ c ∈ rest, ([charSlash] : List U8).contains c = true)
    (absent : vfsSearchNode ramfs.vfs holder name = some 0#64)
    (created : vfsCreate ramfs.vfs holder (some name) .directory (ramfsPermissions mode) =
      some (0#32, made, vfs)) (fuel : Nat) :
    ramfsParseComponents true mode (fuel + 2) ramfs token holder =
      some (some ⟨0#64, made⟩,
        { ramfs with
          vfs
          calls := ramfs.calls ++ vfsCreateCalls ramfs.vfs holder (some name) }) := by
  have ended := @Ramfs.strtok_end ramfs.last 0#64 rest
    { ramfs with
      vfs
      calls := ramfs.calls ++ vfsCreateCalls ramfs.vfs holder (some name) }
    slashes cut.waiting cut.waitingRoom (if_pos rfl)
  rw [ramfsParseComponents, if_neg cut.nonnull, cut.name]
  dsimp only
  rw [absent, Option.bind_eq_bind, Option.bind_some, if_pos rfl, if_pos rfl, created,
    Option.bind_eq_bind, Option.bind_some]
  dsimp only
  rw [if_neg (not_not.mpr rfl), ended]
  dsimp only
  rw [ramfsParseComponents, if_pos rfl]

/-- A file is made of it. -/
theorem ramfsMakeFile_makes {token : U64} {rest : List U8} {vfs : Vfs} {fileSize : U32}
    {vnode : Vnode} (cut : TokenCut ramfs token name rest) (nonempty : name ≠ [])
    (kept : ∀ c ∈ name, ([charSlash] : List U8).contains c = false)
    (created : vfsCreate ramfs.vfs holder (some name) .file (ramfsPermissions mode) =
      some (0#32, made, vfs)) (live : vfs.vnodes made = some vnode) :
    ∃ next, ramfsMakeFile ramfs header fileSize mode ⟨token, holder⟩ = some (0#32, next) ∧
      next.memory = ramfs.memory ∧
      next.vfs = vfs.store made { vnode with
        data := header + ustarHeaderSize.setWidth 64
        size := fileSize.setWidth 64 } := by
  have again := @strtok_whole ramfs.memory ramfs.last token [charSlash] name cut.string nonempty
    kept cut.nonnull
  unfold ramfsMakeFile Ramfs.strtok
  dsimp only
  rw [again]
  dsimp only
  rw [if_pos ⟨cut.nonnull, cut.string.strlen_pos nonempty⟩, cut.name, created, Option.bind_eq_bind, Option.bind_some]
  dsimp only
  rw [if_neg (not_not.mpr rfl), live, Option.bind_eq_bind, Option.bind_some]
  exact ⟨_, rfl, rfl, rfl⟩

/-! One entry -/

/-- The name of an entry lies behind its `./`, within the field. -/
theorem EntryAt.name_field (described : EntryAt ramfs.memory header entry) (proper : entry.Proper)
    {address : U64}
    (within : InRange (ramfsName ramfs.memory header) (dropDotSlash entry.name).length address) :
    InRange header 100 address := by
  have fits := described.fits
  have leads : entry.name.take 2 = [charDot, charSlash] := by
    obtain ⟨first, rest, isPath⟩ := List.exists_cons_of_ne_nil proper.named
    rw [ArchiveEntry.name, ArchiveEntry.absolutePath, isPath]
    rfl
  have same : strncmp (cString ramfs.memory header) dotSlash 2 = 0 := by
    rw [described.cString_eq, strncmp, leads]
    rfl
  rw [ramfsName, if_pos same, dropDotSlash, if_pos leads, List.length_drop] at within
  unfold InRange at within ⊢
  bv_omega

/-- What an entry adds to the tree: the node that is made is filled in. -/
structure EntryMounted (header : U64) (entry : ArchiveEntry) (ramfs : Ramfs) (holder made : U64)
    (name : HeapString) (vfs : Vfs) (next : Ramfs) : Prop where
  vnodes : next.vfs.vnodes =
    Function.update vfs.vnodes made (some (entryVnode header holder name entry))
  root : next.vfs.root = vfs.root
  supply : next.vfs.supply = vfs.supply
  outside : ∀ address, ¬InRange header 100 address → next.memory address = ramfs.memory address

theorem ramfsEntry_mounts (described : EntryAt ramfs.memory header entry) (proper : entry.Proper)
    (nonnull : header ≠ 0#64) (noWrap : header.toNat + 512 ≤ 2 ^ 64)
    (isPath : entry.path = before ++ [name])
    (found : descend ramfs.vfs parent before = some holder) (holderNonnull : holder ≠ 0#64)
    (absent : vfsSearchNode ramfs.vfs holder name = some 0#64) {vfs : Vfs}
    (created : vfsCreate ramfs.vfs holder (some name) entry.type
      (ramfsPermissions (BitVec.ofNat 32 entry.mode)) = some (0#32, made, vfs))
    (live : vfs.vnodes made = some (newVnode holder ⟨copy, name⟩ entry.type
      (ramfsPermissions (BitVec.ofNat 32 entry.mode)))) :
    ∃ next, ramfsEntry parent ramfs header = some (false, next) ∧
      EntryMounted header entry ramfs holder made ⟨copy, name⟩ vfs next := by
  obtain ⟨isName, -⟩ := described.named proper nonnull noWrap
  have fits := described.fits
  have room := isName.room
  have split : Tokens [charSlash] (dropDotSlash entry.name) (before ++ [name]) := by
    rw [← isPath, ← proper.components_behind]
    exact tokens_components _
  have short := split.length_le
  rw [List.length_append, List.length_singleton] at short
  obtain ⟨fuel, isFuel⟩ : ∃ fuel, 2 ^ 64 = before.length + (fuel + 2) :=
    ⟨2 ^ 64 - before.length - 2, by omega⟩
  obtain ⟨walkedTo, token, rest, tokenizes, cut, slashes, kept, walked⟩ :=
    @ramfsParseComponents_walks ramfs parent holder _ _ _ name before
      (ramfsIsDirectory ramfs.memory header) (ramfsMode ramfs.memory header) split isName.string
      isName.nonnull room (if_neg isName.nonnull) found holderNonnull (fuel + 2)
  have inField : ∀ address, ¬InRange header 100 address →
      walkedTo.memory address = ramfs.memory address := fun address outside =>
    tokenizes.outside address fun within => outside (described.name_field proper within)
  rw [← isFuel] at walked
  rw [← tokenizes.vfs] at absent created
  have nonempty := (proper.names name (by simp [isPath])).1.nonempty
  unfold ramfsEntry
  dsimp only
  rw [walked, described.isDirectory_eq, described.mode_eq, described.fileSize_eq]
  cases isType : entry.type with
  | directory =>
      rw [isType] at created live
      rw [decide_eq_true rfl, ramfsParseComponents_makes cut slashes absent created,
        Option.bind_eq_bind, Option.bind_some]
      refine ⟨_, rfl, ?_, rfl, rfl, inField⟩
      have same : entryVnode header holder ⟨copy, name⟩ entry = newVnode holder ⟨copy, name⟩
          .directory (ramfsPermissions (BitVec.ofNat 32 entry.mode)) := by
        rw [entryVnode, isType]
      rw [same, ← live, Function.update_eq_self]
  | file =>
      rw [isType] at created live
      have stops : ramfsParseComponents false (BitVec.ofNat 32 entry.mode) (fuel + 2) walkedTo token
          holder = some (some ⟨token, holder⟩, walkedTo) := by
        rw [ramfsParseComponents, if_neg cut.nonnull, cut.name]
        dsimp only
        rw [absent, Option.bind_eq_bind, Option.bind_some, if_pos rfl, if_neg Bool.false_ne_true]
      obtain ⟨next, made, sameMemory, stored⟩ := @ramfsMakeFile_makes walkedTo header holder made
        name (BitVec.ofNat 32 entry.mode) token _ vfs (BitVec.ofNat 32 entry.content.length) _ cut
        nonempty kept created live
      have notDirectory : decide (VnodeType.file = .directory) = false := rfl
      rw [notDirectory, stops, Option.bind_eq_bind, Option.bind_some]
      dsimp only
      rw [if_neg Bool.false_ne_true, made]
      refine ⟨next, rfl, ?_, ?_, ?_, ?_⟩
      · rw [stored, entryVnode, isType]
        rfl
      · rw [stored]
        rfl
      · rw [stored]
        rfl
      · rw [sameMemory]
        exact inField

theorem entryVnode_holds {memory : Memory} (isPath : entry.path = before ++ [name])
    (content : bytesAt memory (header + 512#64) entry.content.length = entry.content)
    (small : entry.content.length < 2 ^ 31) (noWrap : header.toNat + entry.span < 2 ^ 64) :
    (entryVnode header holder ⟨copy, name⟩ entry).HoldsBelow memory (header.toNat + entry.span)
      entry := by
  have span : entry.span = 512 + (entry.content.length + 511) / 512 * 512 := rfl
  have last : entry.path.getLast? = some name := by rw [isPath, List.getLast?_concat]
  have permissions := ramfsPermissions_same entry.mode
  unfold entryVnode
  dsimp only
  cases isType : entry.type with
  | directory =>
      have noFile : entry.type ≠ .file := by
        rw [isType]
        decide
      exact ⟨⟨isType.symm, permissions, last, fun isFile => absurd isFile noFile,
        fun isFile => absurd isFile noFile⟩, fun isFile => absurd isFile noFile⟩
  | file =>
      refine ⟨⟨isType.symm, permissions, last, fun _ => ?_, fun _ => content⟩, fun _ => ?_⟩
      · dsimp only
        rw [BitVec.toNat_setWidth, BitVec.toNat_ofNat]
        omega
      · have behind : (header + ustarHeaderSize.setWidth 64).toNat = header.toNat + 512 := by
          rw [BitVec.toNat_add]
          change (header.toNat + 512) % 2 ^ 64 = _
          omega
        dsimp only
        rw [behind]
        omega

namespace EntryMounted

variable {vfs : Vfs} {heapName : HeapString}

/-- Memory outside the header stays. -/
theorem apart (mounted : EntryMounted header entry ramfs holder made heapName vfs next)
    (noWrap : header.toNat + 512 ≤ 2 ^ 64) {address : U64}
    (beside : address.toNat < header.toNat ∨ header.toNat + 512 ≤ address.toNat) :
    next.memory address = ramfs.memory address := by
  refine mounted.outside address fun within => ?_
  unfold InRange at within
  rw [BitVec.toNat_sub] at within
  have bound := address.isLt
  omega

/-- The vnode holds the entry, whose contents are where they were. -/
theorem holds (mounted : EntryMounted header entry ramfs holder made heapName vfs next)
    (described : EntryAt ramfs.memory header entry) (isPath : entry.path = before ++ [name])
    (small : entry.content.length < 2 ^ 31) (noWrap : header.toNat + entry.span < 2 ^ 64) :
    (entryVnode header holder ⟨copy, name⟩ entry).HoldsBelow next.memory
      (header.toNat + entry.span) entry := by
  have span : entry.span = 512 + (entry.content.length + 511) / 512 * 512 := rfl
  refine entryVnode_holds isPath ?_ small noWrap
  refine (bytesAt_congr fun position below => mounted.apart (by omega) (.inr ?_)).trans
    described.content
  rw [BitVec.add_assoc, BitVec.toNat_add, BitVec.toNat_add, BitVec.toNat_ofNat, BitVec.toNat_ofNat]
  omega

end EntryMounted

end Nekonix
