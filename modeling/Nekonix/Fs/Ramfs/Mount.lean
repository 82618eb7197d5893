import Nekonix.Fs.Ramfs.Decoding

/-!
# The mount of an archive

What `ramfs_init` makes of an archive: a node for each entry, and no others.  Each turn of the
loop adds the next entry, where `kmalloc` has blocks for it.
-/

namespace Nekonix

open FlatMemory LinkedList Loop

variable {ramfs next : Ramfs} {data size header parent made copy : U64} {text name : List U8}
  {entry : ArchiveEntry} {entries : List ArchiveEntry} {nodeOf : List (List U8) → U64}

/-! The heap -/

/-- The heap has two blocks for each of `count` nodes: not NULL, different, and none in use. -/
structure Supplied (vfs : Vfs) (count : Nat) : Prop where
  enough : 2 * count ≤ vfs.supply.length
  nonnull : 0#64 ∉ vfs.supply
  distinct : vfs.supply.Nodup
  fresh : ∀ block ∈ vfs.supply, vfs.vnodes block = none

theorem Supplied.exists_blocks {vfs : Vfs} {count : Nat} (supplied : Supplied vfs (count + 1)) :
    ∃ made copy supply, vfs.supply = made :: copy :: supply ∧ made ≠ 0#64 ∧ copy ≠ 0#64 ∧
      vfs.vnodes made = none := by
  obtain ⟨enough, nonnull, -, fresh⟩ := supplied
  rcases isSupply : vfs.supply with _ | ⟨made, _ | ⟨copy, supply⟩⟩
  · rw [isSupply] at enough
    cases enough
  · rw [isSupply, List.length_singleton] at enough
    omega
  · rw [isSupply, List.mem_cons, List.mem_cons, not_or, not_or] at nonnull
    exact ⟨made, copy, supply, rfl, Ne.symm nonnull.1, Ne.symm nonnull.2.1,
      fresh made (by simp [isSupply])⟩

/-- After a node is made there are two blocks less. -/
theorem Supplied.further {vfs after : Vfs} {count : Nat} {supply : List U64}
    (supplied : Supplied vfs (count + 1)) (isSupply : vfs.supply = made :: copy :: supply)
    (left : after.supply = supply)
    (fresh : ∀ block, block ≠ made → vfs.vnodes block = none → after.vnodes block = none) :
    Supplied after count := by
  obtain ⟨enough, nonnull, distinct, unused⟩ := supplied
  rw [isSupply] at enough nonnull distinct unused
  rw [List.length_cons, List.length_cons] at enough
  refine ⟨by rw [left]; omega, ?_, ?_, ?_⟩
  · rw [left]
    exact fun listed => nonnull (by simp [listed])
  · rw [left]
    exact (List.nodup_cons.mp (List.nodup_cons.mp distinct).2).2
  · intro block listed
    rw [left] at listed
    refine fresh block ?_ (unused block (by simp [listed]))
    rintro rfl
    exact (List.nodup_cons.mp distinct).1 (List.mem_cons_of_mem _ listed)

/-! The entries one after the other -/

/-- Each path is listed once, behind the directory that it is in. -/
structure ProperArchive (entries : List ArchiveEntry) : Prop where
  proper : ∀ entry ∈ entries, entry.Proper
  once : (entries.map ArchiveEntry.path).Nodup
  parentsFirst : ∀ before entry after, entries = before ++ entry :: after →
    entry.path.dropLast = [] ∨
      ∃ directory ∈ before, directory.type = .directory ∧ directory.path = entry.path.dropLast

/-- The entries `done` are in the tree, and `rest` is still to be read from `offset` on. -/
structure Mounting (data size : U64) (done rest : List ArchiveEntry) (ramfs : Ramfs) (offset : Nat)
    (nodeOf : List (List U8) → U64) : Prop where
  archive : ArchiveAt ramfs.memory data size.toNat offset rest
  unpacked : Unpacked ramfs.memory (data.toNat + offset) ramfs.vfs done nodeOf
  supplied : Supplied ramfs.vfs rest.length

variable {offset : Nat} {done rest : List ArchiveEntry}

namespace ProperArchive

theorem parent_listed (whole : ProperArchive (done ++ entry :: rest)) :
    entry.path.dropLast ∈ archivePaths done := by
  rcases whole.parentsFirst done entry rest rfl with atRoot | ⟨directory, listed, -, isParent⟩
  · rw [atRoot]
    exact List.mem_cons_self
  · exact mem_archivePaths.mpr (.inr ⟨directory, listed, isParent⟩)

theorem path_new (whole : ProperArchive (done ++ entry :: rest)) :
    entry.path ∉ archivePaths done := by
  intro listed
  rcases mem_archivePaths.mp listed with empty | ⟨earlier, inDone, same⟩
  · exact (whole.proper entry (by simp)).named empty
  · have once := whole.once
    rw [List.map_append, List.map_cons] at once
    have apart := (List.nodup_append'.mp once).2.2 (List.mem_map_of_mem inDone)
    exact apart (by simp [same])

end ProperArchive

namespace Mounting

theorem header_toNat (mounting : Mounting data size done rest ramfs offset nodeOf)
    (room : data.toNat + size.toNat ≤ 2 ^ 64) :
    (data + BitVec.ofNat 64 offset).toNat = data.toNat + offset := by
  have fits := mounting.archive.room
  rw [BitVec.toNat_add, BitVec.toNat_ofNat]
  omega

theorem leaves (mounting : Mounting data size done [] ramfs offset nodeOf) (parent : U64) :
    ramfsTurn data size parent (ramfs, BitVec.ofNat 64 offset) = .leave (some (0#32, ramfs)) := by
  obtain ⟨ends, zeros⟩ := mounting.archive
  have isZero := zeros 0 (by decide)
  rw [Nat.add_zero] at isZero
  unfold ramfsTurn
  dsimp only
  rw [if_pos isZero]
  exact ite_self _

/-- A turn of the loop adds the next entry to the tree. -/
theorem turns (mounting : Mounting data size done (entry :: rest) ramfs offset nodeOf)
    (whole : ProperArchive (done ++ entry :: rest)) (nonnull : data ≠ 0#64)
    (room : data.toNat + size.toNat ≤ 2 ^ 64) :
    ∃ next made,
      ramfsTurn data size ramfs.vfs.root (ramfs, BitVec.ofNat 64 offset) =
        .next (next, BitVec.ofNat 64 (offset + entry.span)) ∧
      next.vfs.root = ramfs.vfs.root ∧
      Mounting data size (done ++ [entry]) rest next (offset + entry.span)
        (Function.update nodeOf entry.path made) := by
  have isHeader := mounting.header_toNat room
  obtain ⟨⟨described, behind⟩, unpacked, supplied⟩ := mounting
  have fits := behind.room
  have span : entry.span = 512 + (entry.content.length + 511) / 512 * 512 := rfl
  have entryProper := whole.proper entry (by simp)
  have parentListed := whole.parent_listed
  obtain ⟨name, isLast⟩ := Option.ne_none_iff_exists'.mp
    (mt List.getLast?_eq_none_iff.mp entryProper.named)
  have isPath := (path_eq_append_iff entryProper.named).mpr ⟨rfl, isLast⟩
  have doneProper : ∀ entry ∈ done, entry.Proper := fun entry listed =>
    whole.proper entry (by simp [listed])
  have found := unpacked.descend_root doneProper parentListed
  have holderNonnull := unpacked.nonnull_node parentListed
  have nonzero := (entryProper.names name (List.mem_of_getLast? isLast)).1.nonzero
  have absent := unpacked.search_absent doneProper parentListed nonzero (isPath ▸ whole.path_new)
  obtain ⟨made, copy, supply, isSupply, madeNonnull, copyNonnull, fresh⟩ := supplied.exists_blocks
  have created := vfsCreate_appends (unpacked.children _ parentListed) holderNonnull isSupply
    madeNonnull copyNonnull fresh name entry.type (ramfsPermissions (BitVec.ofNat 32 entry.mode))
  obtain ⟨next, isEntry, mounted⟩ := ramfsEntry_mounts described entryProper (by bv_omega)
    (by omega) isPath found holderNonnull absent created (Function.update_self ..)
  have added : EntryAdded nodeOf done ramfs.vfs entry made
      (entryVnode (data + BitVec.ofNat 64 offset) (nodeOf entry.path.dropLast) ⟨copy, name⟩ entry)
      next.vfs := by
    refine ⟨parentListed, whole.path_new, madeNonnull, fresh, entryVnode_child ..,
      entryVnode_next .., ?_, mounted.root⟩
    rw [mounted.vnodes, Function.update_idem]
  have holds := @EntryMounted.holds _ _ _ _ made copy name _ _ _ _ mounted described isPath
    entryProper.small (by omega)
  rw [isHeader, Nat.add_assoc] at holds
  refine ⟨next, made, ?_, mounted.root, ?_, ?_, ?_⟩
  · have inside : BitVec.ofNat 64 offset < size := by
      rw [BitVec.lt_def, BitVec.toNat_ofNat]
      omega
    have skips := (described.named entryProper (by bv_omega) (by omega)).2
    unfold ramfsTurn
    dsimp only
    rw [if_pos inside, if_neg described.nonzero, if_neg skips, isEntry,
      described.next_eq entryProper.small]
    rfl
  · refine behind.congr fun position atLeast below => mounted.apart (by omega) (.inr ?_)
    rw [isHeader, BitVec.toNat_add, BitVec.toNat_ofNat]
    omega
  · exact added.unpacked (unpacked.later (by omega) (by omega)
      fun address below => mounted.apart (by omega) (.inl (isHeader.symm ▸ below))) holds
  · exact supplied.further isSupply mounted.supply fun block => added.unused

/-- The loop ends behind the last entry, with all of them in the tree. -/
theorem ends (mounting : Mounting data size done rest ramfs offset nodeOf)
    (whole : ProperArchive (done ++ rest)) (nonnull : data ≠ 0#64)
    (room : data.toNat + size.toNat ≤ 2 ^ 64) :
    ∃ heads next limit nodeOf',
      Ends (ramfsTurn data size ramfs.vfs.root) (ramfs, BitVec.ofNat 64 offset) heads
        (some (0#32, next)) ∧
      heads.length = rest.length + 1 ∧
      Unpacked next.memory limit next.vfs (done ++ rest) nodeOf' := by
  induction rest generalizing done ramfs offset nodeOf with
  | nil =>
      refine ⟨_, ramfs, data.toNat + offset, nodeOf, .leave (mounting.leaves _), rfl, ?_⟩
      rw [List.append_nil]
      exact mounting.unpacked
  | cons entry rest inductionHypothesis =>
      obtain ⟨next, made, turn, sameRoot, further⟩ := mounting.turns whole nonnull room
      rw [List.append_cons] at whole
      obtain ⟨heads, last, limit, nodeOf', ends, isLength, unpacked⟩ :=
        inductionHypothesis further whole
      rw [sameRoot] at ends
      refine ⟨_, last, limit, nodeOf', .turn turn ends, ?_, ?_⟩
      · rw [List.length_cons, isLength, List.length_cons]
      · rw [List.append_cons]
        exact unpacked

end Mounting

/-- `ramfs_init` puts the entries of an archive into the tree. -/
theorem ramfsInit_unpacks (whole : ProperArchive entries)
    (archive : ArchiveAt ramfs.memory data size.toNat 0 entries) (nonnull : data ≠ 0#64)
    (room : data.toNat + size.toNat ≤ 2 ^ 64) (rootLive : ramfs.vfs.Live ramfs.vfs.root)
    (rootNonnull : ramfs.vfs.root ≠ 0#64) (supplied : Supplied ramfs.vfs entries.length) :
    ∃ next limit nodeOf, ramfsInit data size ramfs = some (0#32, next) ∧
      Unpacked next.memory limit next.vfs entries nodeOf := by
  have fits := archive.room
  have bound := size.isLt
  obtain ⟨rootNode, rootLive⟩ := rootLive
  have notEmpty : ¬(data = 0#64 ∨ size = 0#64) := by
    rw [not_or]
    refine ⟨nonnull, ?_⟩
    rintro rfl
    rw [BitVec.toNat_ofNat] at fits
    omega
  unfold ramfsInit
  dsimp only
  rw [if_neg notEmpty, rootLive, Option.bind_eq_bind, Option.bind_some]
  generalize isRoot : ({ rootNode with
    type := .directory
    size := size
    permissions := rootPermissions
    child := 0#64
    next := 0#64 } : Vnode) = mounted
  have noChild : mounted.child = 0#64 := by rw [← isRoot]
  have live : (ramfs.vfs.store ramfs.vfs.root mounted).vnodes ramfs.vfs.root = some mounted :=
    Function.update_self ..
  have mounting : Mounting data size [] entries
      { ramfs with vfs := ramfs.vfs.store ramfs.vfs.root mounted } 0 fun _ => ramfs.vfs.root := by
    refine ⟨archive, ⟨rfl, ?_, List.nodup_singleton _, ?_, ?_, ?_⟩, ?_⟩
    · exact fun isNull => rootNonnull (List.mem_singleton.mp isNull).symm
    · exact fun entry listed => absurd listed List.not_mem_nil
    · exact fun path _ => ⟨mounted, live, noChild, fun _ listed => absurd listed List.not_mem_nil⟩
    · exact fun entry listed => absurd listed List.not_mem_nil
    · refine ⟨supplied.enough, supplied.nonnull, supplied.distinct, fun block listed => ?_⟩
      have unused := supplied.fresh block listed
      exact (Function.update_of_ne (ne_of_live_dead rootLive unused).symm _ _).trans unused
  obtain ⟨heads, next, limit, nodeOf, ends, isLength, unpacked⟩ := mounting.ends whole nonnull room
  refine ⟨next, limit, nodeOf, ?_, unpacked⟩
  rw [ramfsParse, if_neg notEmpty]
  exact ramfsParseEntries_of_ends ends (2 ^ 64) (by omega)

/-! What the mount is for -/

/-- The nodes below the root are those of the entries, one for each, with what the entry says,
and `vfs_lookup` finds each under what is the `spelling` of its path. -/
structure ArchiveMounted (spelling : ArchiveEntry → List U8) (entries : List ArchiveEntry)
    (nodeOf : List (List U8) → U64) (next : Ramfs) : Prop where
  tree : ∀ node, Relation.TransGen next.vfs.IsChild next.vfs.root node ↔
    ∃ entry ∈ entries, nodeOf entry.path = node
  once : (next.vfs.root :: entries.map fun entry => nodeOf entry.path).Nodup
  nodes : ∀ entry ∈ entries, ∃ vnode, next.vfs.vnodes (nodeOf entry.path) = some vnode ∧
    vnode.Holds next.memory entry
  lookup : ∀ entry ∈ entries, ∀ last block supply, block ≠ 0#64 →
    block.toNat + (spelling entry).length < 2 ^ 64 →
    (vfsLookup { next.vfs with supply := block :: supply } last (spelling entry)).map Prod.fst =
      some (nodeOf entry.path)

/-- After `ramfs_init` on an archive the tree below the root is the archive, and `vfs_lookup`
finds each entry under its path from the root. -/
theorem ramfs_init_mounts_archive (whole : ProperArchive entries)
    (archive : ArchiveAt ramfs.memory data size.toNat 0 entries) (nonnull : data ≠ 0#64)
    (room : data.toNat + size.toNat ≤ 2 ^ 64) (rootLive : ramfs.vfs.Live ramfs.vfs.root)
    (rootNonnull : ramfs.vfs.root ≠ 0#64) (supplied : Supplied ramfs.vfs entries.length) :
    ∃ next nodeOf, ramfsInit data size ramfs = some (0#32, next) ∧
      ArchiveMounted ArchiveEntry.absolutePath entries nodeOf next := by
  obtain ⟨next, limit, nodeOf, result, unpacked⟩ :=
    ramfsInit_unpacks whole archive nonnull room rootLive rootNonnull supplied
  refine ⟨next, nodeOf, result, ?_, ?_, ?_, ?_⟩
  · exact fun node => unpacked.below_iff whole.proper
  · have distinct := unpacked.distinct
    rwa [archivePaths, List.map_cons, List.map_map, unpacked.root] at distinct
  · intro entry listed
    obtain ⟨vnode, live, holds⟩ := unpacked.holds entry listed
    exact ⟨vnode, live, holds.toHolds⟩
  · exact fun entry listed last block supply => unpacked.lookup_absolute whole.proper listed last

/-! A directory `d` with a file `a` of one byte -/

def nestedEntries : List ArchiveEntry :=
  [⟨[[0x64#8]], .directory, 0o755, []⟩, ⟨[[0x64#8], [charLowerA]], .file, 0o644, [charLowerX]⟩]

/-- The bytes of a header with these fields. -/
def headerBytes (name mode size : List U8) (typeflag : U8) (position : Nat) : U8 :=
  if position < 100 then name.getD position 0#8
  else if position < 124 then mode.getD (position - 100) 0#8
  else if position < 156 then size.getD (position - 124) 0#8
  else if position = 156 then typeflag
  else 0#8

def nestedArchive : Memory := fun address =>
  let position := (address - 0x100000#64).toNat
  if position < 512 then
    headerBytes [charDot, charSlash, 0x64#8, charSlash] [charSeven, charFive, charFive] [charZero]
      charFive position
  else if position < 1024 then
    headerBytes [charDot, charSlash, 0x64#8, charSlash, charLowerA] [0x36#8, 0x34#8, 0x34#8]
      [0x31#8] charZero (position - 512)
  else if position = 1024 then charLowerX
  else 0#8

/-- The root at `0x10`, and blocks for two nodes. -/
def nestedRamfs : Ramfs where
  vfs := ⟨Function.update (fun _ => none) 0x10#64 (some (rootVnode ⟨0x20#64, rootName⟩)), 0x10#64,
    [0x30#64, 0x40#64, 0x50#64, 0x60#64]⟩
  memory := nestedArchive
  last := 0#64
  calls := []

theorem nestedEntries_proper : ProperArchive nestedEntries := by
  have names : ∀ name ∈ ([[0x64#8], [charLowerA]] : List (List U8)),
      ProperName name ∧ name ≠ [charDot] ∧ name ≠ [charDot, charDot] := by
    intro name listed
    simp only [List.mem_cons, List.not_mem_nil, or_false] at listed
    rcases listed with rfl | rfl
    · exact ⟨⟨by decide, by decide, by decide⟩, by decide, by decide⟩
    · exact ⟨⟨by decide, by decide, by decide⟩, by decide, by decide⟩
  refine ⟨?_, by decide, ?_⟩
  · intro entry listed
    simp only [nestedEntries, List.mem_cons, List.not_mem_nil, or_false] at listed
    rcases listed with rfl | rfl
    · exact ⟨by decide, fun name listed => names name (List.mem_append_left _ listed), by decide⟩
    · exact ⟨by decide, names, by decide⟩
  · intro before entry after split
    rcases before with _ | ⟨first, _ | ⟨second, before⟩⟩
    · cases split
      exact .inl rfl
    · cases split
      exact .inr ⟨_, List.mem_singleton_self _, rfl, rfl⟩
    · have lengths := congrArg List.length split
      simp [nestedEntries] at lengths

theorem nestedRamfs_supplied : Supplied nestedRamfs.vfs nestedEntries.length := by
  refine ⟨by decide, by decide, by decide, fun block listed => ?_⟩
  have notRoot : block ≠ 0x10#64 := by
    rintro rfl
    revert listed
    decide
  change Function.update (fun _ => none) 0x10#64 _ block = none
  exact Function.update_of_ne notRoot _ _

theorem nestedRamfs_archive : ArchiveAt nestedRamfs.memory 0x100000#64 2048 0 nestedEntries := by
  have string : ∀ (field : U64) (text : List U8), text.length < 100 →
      nestedArchive (field + BitVec.ofNat 64 text.length) = 0#8 →
      fieldText nestedArchive field 100 = text → StringAt nestedArchive field text := by
    intro field text short ended isText
    exact isText ▸ (TerminatedIn.stringAt ⟨_, short, ended⟩).1
  have octal : ∀ (field : U64) (width value : Nat) (digits : List U8), digits.length < width →
      digits.length < 100 → nestedArchive (field + BitVec.ofNat 64 digits.length) = 0#8 →
      fieldText nestedArchive field 100 = digits →
      (∀ c ∈ digits, charZero ≤ c ∧ c ≤ charSeven) → octalValue digits = value →
      OctalField nestedArchive field width value :=
    fun field width value digits short long ended isText isOctal isValue =>
      ⟨digits, string field digits long ended isText, short, isOctal, isValue⟩
  refine ⟨⟨?_, by decide, ?_, ?_, by decide +kernel, rfl⟩,
    ⟨?_, by decide, ?_, ?_, by decide +kernel, by decide +kernel⟩, by decide, by decide +kernel⟩
  · exact string _ _ (by decide) (by decide +kernel) (by decide +kernel)
  · exact octal _ _ _ [charSeven, charFive, charFive] (by decide) (by decide) (by decide +kernel)
      (by decide +kernel) (by decide) (by decide)
  · exact octal _ _ _ [charZero] (by decide) (by decide) (by decide +kernel) (by decide +kernel)
      (by decide) (by decide)
  · exact string _ _ (by decide) (by decide +kernel) (by decide +kernel)
  · exact octal _ _ _ [0x36#8, 0x34#8, 0x34#8] (by decide) (by decide) (by decide +kernel)
      (by decide +kernel) (by decide) (by decide)
  · exact octal _ _ _ [0x31#8] (by decide) (by decide) (by decide +kernel) (by decide +kernel)
      (by decide) (by decide)

theorem ramfs_init_mounts_archive_nested : ∃ next nodeOf,
    ramfsInit 0x100000#64 2048#64 nestedRamfs = some (0#32, next) ∧
      ArchiveMounted ArchiveEntry.absolutePath nestedEntries nodeOf next :=
  ramfs_init_mounts_archive nestedEntries_proper nestedRamfs_archive (by decide) (by decide)
    ⟨_, rfl⟩ (by decide) nestedRamfs_supplied

/-- Under the names that they have in the archive, no lookup finds the entries. -/
theorem ramfs_init_hides_names : ¬∀ (data size : U64) (ramfs : Ramfs) (entries : List ArchiveEntry),
    ProperArchive entries → ArchiveAt ramfs.memory data size.toNat 0 entries → data ≠ 0#64 →
    data.toNat + size.toNat ≤ 2 ^ 64 → ramfs.vfs.Live ramfs.vfs.root → ramfs.vfs.root ≠ 0#64 →
    Supplied ramfs.vfs entries.length →
    ∃ next nodeOf, ramfsInit data size ramfs = some (0#32, next) ∧
      ArchiveMounted ArchiveEntry.name entries nodeOf next := by
  intro always
  obtain ⟨next, nodeOf, result, mounted⟩ := always 0x100000#64 2048#64 nestedRamfs nestedEntries
    nestedEntries_proper nestedRamfs_archive (by decide) (by decide) ⟨_, rfl⟩ (by decide)
    nestedRamfs_supplied
  obtain ⟨next', limit, nodeOf', result', unpacked⟩ := @ramfsInit_unpacks nestedRamfs
    0x100000#64 2048#64 _ nestedEntries_proper nestedRamfs_archive (by decide) (by decide) ⟨_, rfl⟩
    (by decide) nestedRamfs_supplied
  rw [result] at result'
  cases result'
  have listed : nestedEntries.head (by decide) ∈ nestedEntries := List.head_mem _
  have looked := mounted.lookup _ listed 0#64 0x70#64 [] (by decide) (by decide)
  rw [unpacked.lookup_name nestedEntries_proper.proper listed 0#64 (by decide) (by decide),
    Option.some_inj] at looked
  obtain ⟨entry, inEntries, isNode⟩ := (unpacked.below_iff nestedEntries_proper.proper).mp
    ((mounted.tree _).mpr ⟨_, listed, looked.symm⟩)
  exact unpacked.nonnull_node (path_mem inEntries) isNode

end Nekonix
