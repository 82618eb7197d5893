import Nekonix.Dev.Vfs.Lookup
import Nekonix.Fs.Ramfs.Names
import Nekonix.Lib.Strtol
import Mathlib.Data.List.Induction

/-!
# Archives

What it means that an archive lies in memory: a header and the padded contents for each entry,
and a block of zeros.  `ramfs_parse` reads of a header what the entry says.
-/

namespace Nekonix

/-! Entries -/

/-- `/` and each of the names. -/
def slashed (names : List (List U8)) : List U8 := names.flatMap fun name => charSlash :: name

/-- A file or a directory, by the components of its path. -/
structure ArchiveEntry where
  path : List (List U8)
  type : VnodeType
  mode : Nat
  content : List U8

namespace ArchiveEntry

/-- `/c1/.../ck` -/
def absolutePath (entry : ArchiveEntry) : List U8 := slashed entry.path

/-- `./c1/.../ck`, and a slash behind a directory. -/
def name (entry : ArchiveEntry) : List U8 :=
  charDot :: (entry.absolutePath ++
    match entry.type with
    | .directory => [charSlash]
    | .file => [])

def typeflag (entry : ArchiveEntry) : U8 :=
  match entry.type with
  | .directory => charFive
  | .file => charZero

/-- The header and the contents, padded to whole blocks. -/
def span (entry : ArchiveEntry) : Nat := 512 + (entry.content.length + 511) / 512 * 512

end ArchiveEntry

/-! Octal fields -/

def charSeven : U8 := 0x37#8

def octalValue (digits : List U8) : Nat :=
  digits.foldl (fun value c => value * 8 + (c.toNat - charZero.toNat)) 0

/-- The field holds octal digits and a terminator. -/
def OctalField (memory : Memory) (field : U64) (width value : Nat) : Prop :=
  ∃ digits, StringAt memory field digits ∧ digits.length < width ∧
    (∀ c ∈ digits, charZero ≤ c ∧ c ≤ charSeven) ∧ octalValue digits = value

/-- A path of one component at least, none of them `.` or `..`, and a size below 2^31. -/
structure ArchiveEntry.Proper (entry : ArchiveEntry) : Prop where
  named : entry.path ≠ []
  names : ∀ name ∈ entry.path, ProperName name ∧ name ≠ [charDot] ∧ name ≠ [charDot, charDot]
  small : entry.content.length < 2 ^ 31

/-! Permissions -/

/-- The bits of a mode, and the permissions they grant. -/
def permissionBits : List (Nat × U32) :=
  [(8, vnodePermsOwnerRead), (7, vnodePermsOwnerWrite), (6, vnodePermsOwnerExecute),
    (5, vnodePermsGroupRead), (4, vnodePermsGroupWrite), (3, vnodePermsGroupExecute),
    (2, vnodePermsOthersRead), (1, vnodePermsOthersWrite), (0, vnodePermsOthersExecute)]

/-- Each of the nine bits is granted exactly if the mode has it, and nothing else is. -/
def SamePermissions (mode : Nat) (permissions : U32) : Prop :=
  (∀ bits ∈ permissionBits,
    permissions &&& bits.2 = if mode.testBit bits.1 then bits.2 else 0#32) ∧
  permissions &&& ~~~0x777#32 = 0#32

instance (mode : Nat) (permissions : U32) : Decidable (SamePermissions mode permissions) :=
  inferInstanceAs (Decidable (_ ∧ _))

/-! In memory -/

/-- The header of an entry, and its contents behind it. -/
structure EntryAt (memory : Memory) (header : U64) (entry : ArchiveEntry) : Prop where
  name : StringAt memory header entry.name
  fits : entry.name.length < 100
  mode : OctalField memory (header + ustarModeOffset) 8 entry.mode
  size : OctalField memory (header + ustarSizeOffset) 12 entry.content.length
  typeflag : memory (header + ustarTypeflagOffset) = entry.typeflag
  content : bytesAt memory (header + 512#64) entry.content.length = entry.content

/-- The entries from `offset` on, and the block of zeros that ends them. -/
def ArchiveAt (memory : Memory) (data : U64) (size : Nat) :
    (offset : Nat) → List ArchiveEntry → Prop
  | offset, [] =>
      offset + 512 ≤ size ∧
        ∀ position < 512, memory (data + BitVec.ofNat 64 (offset + position)) = 0#8
  | offset, entry :: entries =>
      EntryAt memory (data + BitVec.ofNat 64 offset) entry ∧
        ArchiveAt memory data size (offset + entry.span) entries

variable {memory other : Memory} {data size header field : U64} {entry : ArchiveEntry}
  {entries : List ArchiveEntry} {digits : List U8} {width value : Nat}

/-! What a field is read as -/

theorem octalDigit {c : U8} (isOctal : charZero ≤ c ∧ c ≤ charSeven) :
    digitValue c = some ((c.toNat - charZero.toNat : Nat) : Int) ∧
      c.toNat - charZero.toNat < 8 := by
  obtain ⟨atLeast, atMost⟩ := isOctal
  have decimal : charZero ≤ c ∧ c ≤ charNine := ⟨atLeast, BitVec.le_trans atMost (by decide)⟩
  rw [BitVec.le_def] at atLeast atMost
  have isZero : charZero.toNat = 48 := rfl
  have isSeven : charSeven.toNat = 55 := rfl
  rw [digitValue, if_pos decimal]
  refine ⟨?_, by omega⟩
  rw [Nat.cast_sub atLeast]

theorem validDigit_octal {c : U8} (isOctal : charZero ≤ c ∧ c ≤ charSeven) :
    validDigit 8 c = true := by
  obtain ⟨isDigit, small⟩ := octalDigit isOctal
  simpa [validDigit, isDigit] using small

theorem octal_accumulate (octal : ∀ c ∈ digits, charZero ≤ c ∧ c ≤ charSeven) (value : Nat) :
    accumulate 8 value digits =
      (digits.foldl (fun value c => value * 8 + (c.toNat - charZero.toNat)) value : Nat) := by
  induction digits generalizing value with
  | nil => rfl
  | cons c digits inductionHypothesis =>
      rw [List.forall_mem_cons] at octal
      rw [accumulate_cons (octalDigit octal.1).1, List.foldl_cons,
        ← inductionHypothesis octal.2]
      push_cast
      rfl

theorem octalValue_lt (octal : ∀ c ∈ digits, charZero ≤ c ∧ c ≤ charSeven) :
    octalValue digits < 8 ^ digits.length := by
  induction digits using List.reverseRecOn with
  | nil => decide
  | append_singleton digits c inductionHypothesis =>
      have earlier := inductionHypothesis fun c listed => octal c (List.mem_append_left _ listed)
      have last := (octalDigit (octal c (by simp))).2
      unfold octalValue at earlier ⊢
      rw [List.foldl_append, List.foldl_cons, List.foldl_nil, List.length_append,
        List.length_singleton, Nat.pow_succ]
      omega

/-- Octal digits are read as the number they stand for. -/
theorem textValue_octal (octal : ∀ c ∈ digits, charZero ≤ c ∧ c ≤ charSeven)
    (short : digits.length ≤ 20) : textValue digits 8 = octalValue digits := by
  have first : ∀ c ∈ digits.head?, charZero ≤ c ∧ c ≤ charSeven := fun c isHead =>
    octal c (List.mem_of_mem_head? isHead)
  have unsigned : splitSign (digits.dropWhile
      [charSpace, charTab, charNewline, charReturn, charFormFeed, charVerticalTab].contains) =
        (1, digits) := by
    cases digits with
    | nil => rfl
    | cons c digits =>
        obtain ⟨atLeast, atMost⟩ := first c rfl
        have visible : ∀ other < charZero, c ≠ other := by
          rintro other below rfl
          exact BitVec.not_le.mpr below atLeast
        rw [List.dropWhile_cons_of_neg]
        · rw [splitSign, if_neg (visible charMinus (by decide)),
            if_neg (visible charPlus (by decide))]
        · simp [visible charSpace (by decide), visible charTab (by decide),
            visible charNewline (by decide), visible charReturn (by decide),
            visible charFormFeed (by decide), visible charVerticalTab (by decide)]
  have whole : digits.takeWhile (validDigit 8) = digits :=
    List.takeWhile_eq_self_iff.mpr fun c listed => validDigit_octal (octal c listed)
  have isValue : (runValue 8 digits : Int) = octalValue digits := by
    rw [← accumulate_zero (by decide), whole]
    exact octal_accumulate octal 0
  have bound : octalValue digits < 8 ^ 20 :=
    (octalValue_lt octal).trans_le (Nat.pow_le_pow_right (by decide) short)
  unfold textValue
  dsimp only
  rw [unsigned]
  dsimp only
  have noPrefix : dropHexPrefix 8 digits = digits := if_neg (by simp)
  have isBase : digitBase 8 digits = 8 := rfl
  rw [isBase, noPrefix, isValue, clampLong, longMax, longMin]
  omega

theorem OctalField.strtol_eq (octal : OctalField memory field width value) (narrow : width ≤ 20) :
    strtol memory field 8 = value := by
  obtain ⟨digits, string, short, isOctal, rfl⟩ := octal
  rw [(strtol_clamps memory field 8 string (.inr ⟨by decide, by decide⟩)).2,
    textValue_octal isOctal (by omega)]

/-! The permissions of a mode -/

theorem addPermission_masked {mask bit : U32} (within : mask &&& bit = bit)
    (mode perm permissions : U32) :
    addPermission (mode &&& mask) bit perm permissions =
      addPermission mode bit perm permissions := by
  rw [addPermission, addPermission, BitVec.and_assoc, within]

/-- The permissions depend on the last nine bits. -/
theorem ramfsPermissions_masked (mode : U32) :
    ramfsPermissions (mode &&& 0o777#32) = ramfsPermissions mode := by
  have masked := fun bit (within : 0o777#32 &&& bit = bit) =>
    @addPermission_masked 0o777#32 bit within mode
  unfold ramfsPermissions
  dsimp only
  rw [masked tuRead (by decide), masked tuWrite (by decide), masked tuExec (by decide),
    masked tgRead (by decide), masked tgWrite (by decide), masked tgExec (by decide),
    masked toRead (by decide), masked toWrite (by decide), masked toExec (by decide)]

theorem ramfsPermissions_same (mode : Nat) :
    SamePermissions mode (ramfsPermissions (BitVec.ofNat 32 mode)) := by
  have small : ∀ low < 512, SamePermissions low (ramfsPermissions (BitVec.ofNat 32 low)) := by
    decide +kernel
  have isLow : BitVec.ofNat 32 mode &&& 0o777#32 = BitVec.ofNat 32 (mode % 512) := by
    apply BitVec.eq_of_toNat_eq
    rw [BitVec.toNat_and, BitVec.toNat_ofNat, BitVec.toNat_ofNat, BitVec.toNat_ofNat]
    have mask : 0o777 % 2 ^ 32 = 2 ^ 9 - 1 := rfl
    rw [mask, Nat.and_two_pow_sub_one_eq_mod]
    omega
  rw [← ramfsPermissions_masked, isLow]
  obtain ⟨granted, nothing⟩ := small (mode % 512) (Nat.mod_lt _ (by decide))
  refine ⟨fun bits listed => ?_, nothing⟩
  have low : ∀ bits ∈ permissionBits, bits.1 < 9 := by decide
  have isBit : (mode % 512).testBit bits.1 = mode.testBit bits.1 := by
    change (mode % 2 ^ 9).testBit bits.1 = _
    rw [Nat.testBit_mod_two_pow, decide_eq_true (low bits listed), Bool.true_and]
  rw [granted bits listed, ← isBit]

/-! The path -/

theorem components_slashed {names : List (List U8)} (proper : ∀ name ∈ names, ProperName name)
    {gap : List U8} (slashes : ∀ c ∈ gap, c = charSlash) :
    components (slashed names ++ gap) = names := by
  induction names with
  | nil => exact components_slashes slashes
  | cons name names inductionHypothesis =>
      rw [List.forall_mem_cons] at proper
      have further := inductionHypothesis proper.2
      have own : components name = [name] :=
        components_name proper.1.nonempty fun slash => proper.1.noSlash _ slash rfl
      have behind : ∃ rest,
          slashed names ++ gap = charSlash :: rest ∨ slashed names ++ gap = [] := by
        cases names with
        | nil =>
            cases gap with
            | nil => exact ⟨[], .inr rfl⟩
            | cons c gap =>
                rw [slashes c List.mem_cons_self]
                exact ⟨gap, .inl rfl⟩
        | cons second names => exact ⟨_, .inl rfl⟩
      have split : slashed (name :: names) ++ gap =
          charSlash :: (name ++ (slashed names ++ gap)) := by
        simp [slashed]
      rw [split, components_slash]
      obtain ⟨rest, begins | ends⟩ := behind
      · rw [begins, components_append, own, ← further, begins, components_slash]
        rfl
      · rw [ends, List.append_nil, own, ← further, ends, components_nil]

namespace ArchiveEntry

theorem slashes_behind (entry : ArchiveEntry) :
    ∀ c ∈ (match entry.type with
      | .directory => [charSlash]
      | .file => [] : List U8), c = charSlash := by
  intro c listed
  cases isType : entry.type with
  | directory =>
      rw [isType] at listed
      exact List.mem_singleton.mp listed
  | file =>
      rw [isType] at listed
      cases listed

/-- The components of an entry's name behind the `./` are its path. -/
theorem Proper.components_behind (proper : entry.Proper) :
    components (dropDotSlash entry.name) = entry.path := by
  have names : ∀ name ∈ entry.path, ProperName name := fun name listed =>
    (proper.names name listed).1
  have whole := components_slashed names entry.slashes_behind
  have begins : entry.name.take 2 = [charDot, charSlash] ∧
      charSlash :: entry.name.drop 2 = entry.name.drop 1 := by
    obtain ⟨first, rest, isPath⟩ := List.exists_cons_of_ne_nil proper.named
    rw [name, absolutePath, isPath]
    exact ⟨rfl, rfl⟩
  rw [dropDotSlash, if_pos begins.1, ← components_slash, begins.2]
  exact whole

theorem Proper.absolutePath_components (proper : entry.Proper) :
    components entry.absolutePath = entry.path := by
  have whole := components_slashed (fun name listed => (proper.names name listed).1)
    fun c (listed : c ∈ ([] : List U8)) => absurd listed List.not_mem_nil
  rwa [List.append_nil] at whole

/-- The name in the archive begins with the component `.`. -/
theorem Proper.name_components (proper : entry.Proper) :
    components entry.name = [charDot] :: entry.path := by
  have behind := proper.components_behind
  obtain ⟨first, rest, isPath⟩ := List.exists_cons_of_ne_nil proper.named
  have isName : ∃ tail, entry.name = [charDot] ++ charSlash :: tail := by
    rw [name, absolutePath, isPath]
    exact ⟨_, rfl⟩
  obtain ⟨tail, isName⟩ := isName
  rw [isName] at behind ⊢
  rw [components_append, components_name (by decide) (by decide)]
  exact congrArg _ behind

theorem Proper.absolutePath_nonzero (proper : entry.Proper) :
    ∀ c ∈ entry.absolutePath, c ≠ 0#8 := by
  intro c listed
  obtain ⟨name, inPath, inName⟩ := List.mem_flatMap.mp listed
  rcases List.mem_cons.mp inName with rfl | here
  · decide
  · exact (proper.names name inPath).1.nonzero c here

theorem Proper.name_nonzero (proper : entry.Proper) : ∀ c ∈ entry.name, c ≠ 0#8 := by
  intro c listed
  rcases List.mem_cons.mp listed with rfl | behind
  · decide
  rcases List.mem_append.mp behind with inPath | inTail
  · exact proper.absolutePath_nonzero c inPath
  · rw [entry.slashes_behind c inTail]
    decide

end ArchiveEntry

/-! What does not change an archive -/

theorem offset_add (base : U64) (first second : Nat) :
    base + BitVec.ofNat 64 first + BitVec.ofNat 64 second =
      base + BitVec.ofNat 64 (first + second) := by
  rw [BitVec.add_assoc, ← BitVec.ofNat_add]

theorem OctalField.congr (octal : OctalField memory field width value)
    (agree : ∀ position < width,
      other (field + BitVec.ofNat 64 position) = memory (field + BitVec.ofNat 64 position)) :
    OctalField other field width value := by
  obtain ⟨digits, string, short, isOctal, isValue⟩ := octal
  exact ⟨digits, string.congr fun position inside => agree position (by omega), short, isOctal,
    isValue⟩

/-- An entry depends on its header and its contents. -/
theorem EntryAt.congr (described : EntryAt memory header entry)
    (agree : ∀ position < 512 + entry.content.length,
      other (header + BitVec.ofNat 64 position) = memory (header + BitVec.ofNat 64 position)) :
    EntryAt other header entry := by
  have inField : ∀ start width : Nat, start + width ≤ 512 + entry.content.length →
      ∀ position < width,
        other (header + BitVec.ofNat 64 start + BitVec.ofNat 64 position) =
          memory (header + BitVec.ofNat 64 start + BitVec.ofNat 64 position) := by
    intro start width inside position below
    rw [offset_add]
    exact agree (start + position) (by omega)
  have fits := described.fits
  refine ⟨?_, fits, ?_, ?_, ?_, ?_⟩
  · exact described.name.congr fun position below => agree position (by omega)
  · exact described.mode.congr (inField 100 8 (by omega))
  · exact described.size.congr (inField 124 12 (by omega))
  · exact (agree 156 (by omega)).trans described.typeflag
  · exact (bytesAt_congr (inField 512 _ (le_refl _))).trans described.content

/-- Each entry takes a header at least, and the zeros another. -/
theorem ArchiveAt.room {offset length : Nat}
    (archive : ArchiveAt memory data length offset entries) :
    offset + (entries.length + 1) * 512 ≤ length := by
  induction entries generalizing offset with
  | nil => exact archive.1
  | cons entry entries inductionHypothesis =>
      have room := inductionHypothesis archive.2
      have header : 512 ≤ entry.span := Nat.le_add_right _ _
      rw [List.length_cons]
      omega

theorem ArchiveAt.congr {offset length : Nat}
    (archive : ArchiveAt memory data length offset entries)
    (agree : ∀ position, offset ≤ position → position < length →
      other (data + BitVec.ofNat 64 position) = memory (data + BitVec.ofNat 64 position)) :
    ArchiveAt other data length offset entries := by
  have room := archive.room
  induction entries generalizing offset with
  | nil =>
      obtain ⟨ends, zeros⟩ := archive
      refine ⟨ends, fun position below => ?_⟩
      exact (agree _ (by omega) (by omega)).trans (zeros position below)
  | cons entry entries inductionHypothesis =>
      have further := archive.2.room
      have span : entry.span = 512 + (entry.content.length + 511) / 512 * 512 := rfl
      refine ⟨archive.1.congr fun position below => ?_, inductionHypothesis archive.2 ?_ further⟩
      · rw [offset_add]
        exact agree _ (by omega) (by omega)
      · exact fun position behind below => agree position (by omega) below

/-! What `ramfs_parse` reads -/

namespace EntryAt

theorem nonzero (described : EntryAt memory header entry) : memory header ≠ 0#8 := by
  have first := described.name.1
  rw [first]
  decide

theorem isDirectory_eq (described : EntryAt memory header entry) :
    ramfsIsDirectory memory header = decide (entry.type = .directory) := by
  rw [ramfsIsDirectory, described.typeflag, ArchiveEntry.typeflag]
  cases entry.type <;> decide

theorem mode_eq (described : EntryAt memory header entry) :
    ramfsMode memory header = BitVec.ofNat 32 entry.mode := by
  rw [ramfsMode, described.mode.strtol_eq (by decide)]
  rfl

theorem fileSize_eq (described : EntryAt memory header entry) :
    ramfsFileSize memory header = BitVec.ofNat 32 entry.content.length := by
  rw [ramfsFileSize, described.size.strtol_eq (by decide)]
  rfl

theorem cString_eq (described : EntryAt memory header entry) :
    cString memory header = entry.name := by
  have fits := described.fits
  exact described.name.readString_eq (by omega)

theorem terminated (described : EntryAt memory header entry) : TerminatedIn memory header 100 := by
  refine (cString_length_lt_iff (by decide)).mp ?_
  rw [described.cString_eq]
  exact described.fits

theorem headerName_eq (described : EntryAt memory header entry) :
    headerName memory header = entry.name := by
  obtain ⟨string, short⟩ := described.terminated.stringAt
  have sameName : cString memory header = headerName memory header :=
    string.readString_eq (by omega)
  exact sameName.symm.trans described.cString_eq

/-- The name behind the `./` is not skipped. -/
theorem named (described : EntryAt memory header entry) (proper : entry.Proper)
    (nonnull : header ≠ 0#64) (noWrap : header.toNat + 512 ≤ 2 ^ 64) :
    EntryName memory header (ramfsName memory header) (dropDotSlash entry.name) ∧
      ¬RamfsSkips memory (ramfsName memory header) := by
  have named := entryName nonnull noWrap described.terminated
  rw [described.headerName_eq] at named
  refine ⟨named, fun skipped => ?_⟩
  have isPath := proper.components_behind
  rcases named.skips.mp skipped with empty | dot
  · rw [empty, components_nil] at isPath
    exact proper.named isPath.symm
  · rw [dot] at isPath
    have isDot : entry.path = [[charDot]] := isPath.symm
    exact (proper.names [charDot] (by simp [isDot])).2.1 rfl

/-- The next header is where the padded contents end. -/
theorem next_eq {offset : Nat} (described : EntryAt memory (data + BitVec.ofNat 64 offset) entry)
    (small : entry.content.length < 2 ^ 31) :
    ramfsNext memory data (BitVec.ofNat 64 offset) = BitVec.ofNat 64 (offset + entry.span) := by
  have isSpan : (ustarEntrySize (BitVec.ofNat 32 entry.content.length)).toNat = entry.span := by
    rw [ustarEntrySize_toNat, BitVec.toNat_ofNat, ArchiveEntry.span]
    omega
  have wide : (ustarEntrySize (BitVec.ofNat 32 entry.content.length)).setWidth 64 =
      BitVec.ofNat 64 entry.span := by
    apply BitVec.eq_of_toNat_eq
    rw [BitVec.toNat_setWidth, isSpan, BitVec.toNat_ofNat]
  rw [ramfsNext, described.fileSize_eq, wide, BitVec.ofNat_add]

end EntryAt

end Nekonix
