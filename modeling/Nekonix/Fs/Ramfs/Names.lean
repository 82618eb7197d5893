import Nekonix.Fs.Ramfs.Entries
import Nekonix.Lib.Path

/-!
# The path of an archive entry

A header keeps its path in two fields of fixed width, which need no terminator.
`ramfs_parse` reads the first of them as a string, and never the second.
-/

namespace Nekonix

variable {memory : Memory} {header s str parent : U64} {text : List U8} {names : List (List U8)}
  {ramfs next after : Ramfs} {mode : U32} {isDirectory : Bool}

/-! The fields -/

/-- Where the field `prefix` of `ustar_header_t` lies. -/
def ustarPrefixOffset : U64 := 345#64

/-- The text of a field, which ends with the field where it has no terminator. -/
def fieldText (memory : Memory) (field : U64) (width : Nat) : List U8 :=
  (bytesAt memory field width).takeWhile (· ≠ 0#8)

def headerName (memory : Memory) (header : U64) : List U8 := fieldText memory header 100

def headerPrefix (memory : Memory) (header : U64) : List U8 :=
  fieldText memory (header + ustarPrefixOffset) 155

/-- `prefix/name`, or `name` where there is no prefix. -/
def headerPath (memory : Memory) (header : U64) : List U8 :=
  if headerPrefix memory header = [] then headerName memory header
  else headerPrefix memory header ++ charSlash :: headerName memory header

/-- The field ends its text itself. -/
def TerminatedIn (memory : Memory) (field : U64) (width : Nat) : Prop :=
  ∃ position < width, memory (field + BitVec.ofNat 64 position) = 0#8

theorem bytesAt_succ (memory : Memory) (base : U64) (n : Nat) :
    bytesAt memory base (n + 1) = memory base :: bytesAt memory (base + 1#64) n := by
  unfold bytesAt
  rw [List.range_succ_eq_map, List.map_cons, List.map_map]
  congr 1
  · rw [BitVec.add_zero]
  · apply List.map_congr_left
    intro offset _
    exact congrArg memory (StringAt.add_succ base offset).symm

theorem TerminatedIn.stringAt {field : U64} {width : Nat} (terminated : TerminatedIn memory field width) :
    StringAt memory field (fieldText memory field width) ∧
      (fieldText memory field width).length < width := by
  induction width generalizing field with
  | zero =>
      obtain ⟨position, below, -⟩ := terminated
      cases below
  | succ width inductionHypothesis =>
      rw [fieldText, bytesAt_succ]
      by_cases ends : memory field = 0#8
      · rw [List.takeWhile_cons_of_neg (by simp [ends])]
        exact ⟨ends, Nat.succ_pos _⟩
      · rw [List.takeWhile_cons_of_pos (by simp [ends])]
        obtain ⟨position, below, isEnd⟩ := terminated
        cases position with
        | zero =>
            rw [BitVec.add_zero] at isEnd
            exact absurd isEnd ends
        | succ position =>
            rw [← StringAt.add_succ] at isEnd
            obtain ⟨string, short⟩ := inductionHypothesis
              ⟨position, Nat.lt_of_succ_lt_succ below, isEnd⟩
            exact ⟨⟨rfl, ends, string⟩, Nat.succ_lt_succ short⟩

theorem readString_ends {fuel : Nat} (short : (readString memory fuel s).length < fuel) :
    memory (s + BitVec.ofNat 64 (readString memory fuel s).length) = 0#8 := by
  induction fuel generalizing s with
  | zero => cases short
  | succ fuel inductionHypothesis =>
      rw [readString] at short ⊢
      split_ifs at short ⊢ with ends
      · rw [List.length_nil, BitVec.add_zero]
        exact ends
      · rw [List.length_cons] at short ⊢
        rw [← StringAt.add_succ]
        exact inductionHypothesis (Nat.lt_of_succ_lt_succ short)

/-- A string lies in a field with its terminator exactly where the field ends it. -/
theorem cString_length_lt_iff {width : Nat} (small : width ≤ 2 ^ 64) :
    (cString memory s).length < width ↔ TerminatedIn memory s width := by
  constructor
  · intro short
    exact ⟨_, short, readString_ends (Nat.lt_of_lt_of_le short small)⟩
  · intro terminated
    obtain ⟨string, short⟩ := terminated.stringAt
    rw [cString, string.readString_eq (Nat.lt_of_lt_of_le short small)]
    exact short

/-! What the loop over the components looks up -/

/-- The node for a component, found or made, and the tree with it. -/
def ramfsSubdir (isDirectory : Bool) (mode : U32) (vfs : Vfs) (currentParent : U64)
    (name : List U8) : Option (U64 × Vfs) := do
  let subdir ← vfsSearchNode vfs currentParent name
  if subdir = 0#64 then
    if isDirectory then
      let (error, subdir, vfs) ←
        vfsCreate vfs currentParent (some name) .directory (ramfsPermissions mode)
      if error ≠ 0#32 then none else some (subdir, vfs)
    else
      none
  else
    some (subdir, vfs)

/-- The names that `ramfs_parse` gives to `vfs_search_node`, in order. -/
def ramfsLookups (isDirectory : Bool) (mode : U32) : (fuel : Nat) → (ramfs : Ramfs) →
    (token currentParent : U64) → List (List U8)
  | 0, _, _, _ => []
  | fuel + 1, ramfs, token, currentParent =>
      if token = 0#64 then
        []
      else
        let name := cString ramfs.memory token
        name ::
          match ramfsSubdir isDirectory mode ramfs.vfs currentParent name with
          | none => []
          | some (subdir, vfs) =>
              let (token, ramfs) := { ramfs with vfs }.strtok 0#64
              ramfsLookups isDirectory mode fuel ramfs token subdir

/-- The name that a file is made under. -/
def ramfsFileName (ramfs : Ramfs) (stop : ComponentsEnd) : Option (List U8) :=
  let (fileName, ramfs) := ramfs.strtok stop.token
  if fileName ≠ 0#64 ∧ strlen ramfs.memory fileName > 0#64 then some (cString ramfs.memory fileName)
  else none

/-- The names that an entry is looked up under. -/
def ramfsEntryLookups (parent : U64) (ramfs : Ramfs) (header : U64) : List (List U8) :=
  if RamfsSkips ramfs.memory (ramfsName ramfs.memory header) then
    []
  else
    let (token, next) := ramfs.strtok (ramfsName ramfs.memory header)
    ramfsLookups (ramfsIsDirectory ramfs.memory header) (ramfsMode ramfs.memory header) (2 ^ 64) next
      token parent

/-- The name that the file of an entry is made under. -/
def ramfsEntryFile (parent : U64) (ramfs : Ramfs) (header : U64) : Option (List U8) :=
  if RamfsSkips ramfs.memory (ramfsName ramfs.memory header) ∨
      ramfsIsDirectory ramfs.memory header then
    none
  else
    let (token, next) := ramfs.strtok (ramfsName ramfs.memory header)
    match ramfsParseComponents false (ramfsMode ramfs.memory header) (2 ^ 64) next token parent with
    | some (some stop, after) => ramfsFileName after stop
    | _ => none

/-! The same along a list of components -/

def walkComponents (isDirectory : Bool) (mode : U32) : (vfs : Vfs) → (parent : U64) →
    List (List U8) → List (List U8)
  | _, _, [] => []
  | vfs, parent, name :: names =>
      name ::
        match ramfsSubdir isDirectory mode vfs parent name with
        | none => []
        | some (subdir, vfs) => walkComponents isDirectory mode vfs subdir names

/-- Each component is there, or is made where the entry is a directory. -/
def ComponentsFound (isDirectory : Bool) (mode : U32) : (vfs : Vfs) → (parent : U64) →
    List (List U8) → Prop
  | _, _, [] => True
  | vfs, parent, name :: names =>
      match ramfsSubdir isDirectory mode vfs parent name with
      | none => False
      | some (subdir, vfs) => ComponentsFound isDirectory mode vfs subdir names

theorem walkComponents_begins (vfs : Vfs) (parent : U64) (names : List (List U8)) :
    walkComponents isDirectory mode vfs parent names <+: names := by
  induction names generalizing vfs parent with
  | nil => exact List.prefix_rfl
  | cons name names inductionHypothesis =>
      rw [walkComponents, List.prefix_cons_inj]
      cases ramfsSubdir isDirectory mode vfs parent name with
      | none => exact List.nil_prefix
      | some found => exact inductionHypothesis found.2 found.1

/-- All components are looked up where all but the last are found. -/
theorem walkComponents_length_iff (vfs : Vfs) (parent : U64) (names : List (List U8)) :
    names.length ≤ (walkComponents isDirectory mode vfs parent names).length ↔
      ComponentsFound isDirectory mode vfs parent names.dropLast := by
  induction names generalizing vfs parent with
  | nil => exact iff_of_true (Nat.le_refl _) trivial
  | cons name names inductionHypothesis =>
      rw [walkComponents]
      cases names with
      | nil =>
          refine iff_of_true ?_ trivial
          rw [List.length_cons, List.length_cons]
          exact Nat.succ_le_succ (Nat.zero_le _)
      | cons second names =>
          rw [List.dropLast_cons_cons, ComponentsFound]
          cases ramfsSubdir isDirectory mode vfs parent name with
          | none => simp
          | some found =>
              refine Iff.trans ?_ (inductionHypothesis found.2 found.1)
              exact Nat.add_le_add_iff_right

/-! The loop goes along the components -/

/-- A token that was cut off: it is a string at `found`, and the rest waits in `last`. -/
structure TokenCut (next : Ramfs) (found : U64) (token rest : List U8) : Prop where
  nonnull : found ≠ 0#64
  string : StringAt next.memory found token
  room : found.toNat + token.length < 2 ^ 64
  waitingNonnull : next.last ≠ 0#64
  waiting : StringAt next.memory next.last rest
  waitingRoom : next.last.toNat + rest.length < 2 ^ 64

theorem TokenCut.name {found : U64} {token rest : List U8} (cut : TokenCut next found token rest) :
    cString next.memory found = token := by
  have room := cut.room
  exact cut.string.readString_eq (by omega)

theorem tokenCut {gap token rest : List U8} (first : FirstToken [charSlash] text gap token rest)
    (string : StringAt ramfs.memory s text) (nonnull : s ≠ 0#64)
    (noWrap : s.toNat + text.length < 2 ^ 64)
    (current : (if str = 0#64 then ramfs.last else str) = s) :
    TokenCut (ramfs.strtok str).2 (ramfs.strtok str).1 token rest.tail := by
  have tokenized := strtok_token first string nonnull noWrap current
  have position := tokenized.position first noWrap
  have begins := tokenized.begins
  have shorter := first.tail_shorter
  have lengths := congrArg List.length first.split
  rw [List.length_append, List.length_append] at lengths
  have zero : (0#64).toNat = 0 := rfl
  have positive : 0 < s.toNat := by bv_omega
  refine ⟨tokenized.nonnull, tokenized.found, ?_, ?_, tokenized.further, ?_⟩
  · change (strtok ramfs.memory ramfs.last str [charSlash]).1.toNat + _ < _
    rw [begins, BitVec.toNat_add, BitVec.toNat_ofNat]
    omega
  · intro isNull
    change (strtok ramfs.memory ramfs.last str [charSlash]).2.2 = 0#64 at isNull
    rw [isNull] at position
    omega
  · change (strtok ramfs.memory ramfs.last str [charSlash]).2.2.toNat + _ < _
    omega

theorem Ramfs.strtok_end (gap : ∀ c ∈ text, ([charSlash] : List U8).contains c = true)
    (string : StringAt ramfs.memory s text) (noWrap : s.toNat + text.length < 2 ^ 64)
    (current : (if str = 0#64 then ramfs.last else str) = s) :
    ramfs.strtok str = (0#64, ramfs) := by
  rw [Ramfs.strtok, Nekonix.strtok_end gap string (by omega) current]

theorem ramfsLookups_eq (split : Tokens [charSlash] text names) (string : StringAt ramfs.memory s text)
    (nonnull : s ≠ 0#64) (noWrap : s.toNat + text.length < 2 ^ 64)
    (current : (if str = 0#64 then ramfs.last else str) = s) {fuel : Nat}
    (enough : names.length < fuel) :
    ramfsLookups isDirectory mode fuel (ramfs.strtok str).2 (ramfs.strtok str).1 parent =
      walkComponents isDirectory mode ramfs.vfs parent names := by
  induction split generalizing ramfs str s parent fuel with
  | done gap =>
      rw [Ramfs.strtok_end gap string noWrap current]
      cases fuel with
      | zero => cases enough
      | succ fuel => rw [ramfsLookups, if_pos rfl, walkComponents]
  | token first further inductionHypothesis =>
      have cut := tokenCut first string nonnull noWrap current
      cases fuel with
      | zero => cases enough
      | succ fuel =>
          rw [ramfsLookups, if_neg cut.nonnull, cut.name, walkComponents]
          dsimp only
          rw [Ramfs.strtok_vfs]
          rcases ramfsSubdir isDirectory mode ramfs.vfs parent _ with _ | ⟨subdir, vfs⟩
          · rfl
          · congr 1
            exact @inductionHypothesis _ 0#64 subdir { (ramfs.strtok str).2 with vfs }
              cut.waiting cut.waitingNonnull cut.waitingRoom (if_pos rfl) fuel
              (Nat.lt_of_succ_lt_succ enough)

theorem StringAt.strlen_pos (string : StringAt memory s text) (nonempty : text ≠ []) :
    strlen memory s > 0#64 := by
  have positive := List.length_pos_iff.mpr nonempty
  have short := string.short
  have whole : (text.takeWhile fun _ => !false) = text :=
    List.takeWhile_eq_self_iff.mpr fun _ _ => rfl
  rw [strlen, string.spanUntil_eq _ short, whole, gt_iff_lt, BitVec.lt_def, BitVec.toNat_ofNat,
    BitVec.toNat_ofNat]
  omega

/-- A token cut off again is the same token. -/
theorem ramfsFileName_of_cut {found currentParent : U64} {token rest : List U8}
    (cut : TokenCut next found token rest) (nonempty : token ≠ [])
    (kept : ∀ c ∈ token, ([charSlash] : List U8).contains c = false) :
    ramfsFileName next ⟨found, currentParent⟩ = some token := by
  have again : FirstToken [charSlash] token [] token [] :=
    ⟨by simp, by simp, kept, nonempty, by simp⟩
  have recut := tokenCut again cut.string cut.nonnull cut.room (if_neg cut.nonnull)
  rw [ramfsFileName]
  dsimp only
  rw [if_pos ⟨recut.nonnull, recut.string.strlen_pos nonempty⟩, recut.name]

/-- A file is made under the last name that was looked up, if at all. -/
theorem ramfsFileName_eq (split : Tokens [charSlash] text names)
    (string : StringAt ramfs.memory s text) (nonnull : s ≠ 0#64)
    (noWrap : s.toNat + text.length < 2 ^ 64)
    (current : (if str = 0#64 then ramfs.last else str) = s) (entered : names ≠ [] ∨ str = 0#64)
    {fuel : Nat} {stop : ComponentsEnd}
    (result : ramfsParseComponents false mode fuel (ramfs.strtok str).2 (ramfs.strtok str).1 parent =
      some (some stop, after)) {name : List U8} (made : ramfsFileName after stop = some name) :
    (walkComponents false mode ramfs.vfs parent names).getLast? = some name := by
  induction split generalizing ramfs str s parent fuel with
  | done gap =>
      have isNull := entered.resolve_left (fun nonempty => nonempty rfl)
      have ended := Ramfs.strtok_end gap string noWrap current
      rw [isNull] at ended
      rw [isNull, ended] at result
      cases fuel with
      | zero => cases result
      | succ fuel =>
          rw [ramfsParseComponents, if_pos rfl] at result
          cases result
          rw [ramfsFileName, ended] at made
          dsimp only at made
          rw [if_neg (fun both => both.1 rfl)] at made
          cases made
  | @token text gap token rest names first further inductionHypothesis =>
      have cut := tokenCut first string nonnull noWrap current
      cases fuel with
      | zero => cases result
      | succ fuel =>
          rw [ramfsParseComponents, if_neg cut.nonnull, cut.name] at result
          dsimp only at result
          rw [Ramfs.strtok_vfs, Option.bind_eq_bind, Option.bind_eq_some_iff] at result
          obtain ⟨subdir, searched, result⟩ := result
          rw [walkComponents, ramfsSubdir, searched]
          by_cases absent : subdir = 0#64
          · rw [if_pos absent, if_neg (by decide)] at result
            cases result
            rw [ramfsFileName_of_cut cut first.nonempty first.kept] at made
            cases made
            simp [absent]
          · rw [if_neg absent] at result
            have rest := inductionHypothesis cut.waiting cut.waitingNonnull cut.waitingRoom
              (if_pos rfl) (.inr rfl) result
            rw [Ramfs.strtok_vfs] at rest
            simp only [Option.bind_eq_bind, Option.bind_some, if_neg absent]
            rw [List.getLast?_cons, rest]
            rfl

/-! One entry -/

/-- The name of an entry as `ramfs_parse` takes it, where the field ends it. -/
structure EntryName (memory : Memory) (header name : U64) (text : List U8) : Prop where
  nonnull : name ≠ 0#64
  string : StringAt memory name text
  room : name.toNat + text.length < 2 ^ 64
  skips : RamfsSkips memory name ↔ text = [] ∨ text = [charDot]

theorem skips_iff (string : StringAt memory s text) (short : text.length < 2 ^ 64) :
    RamfsSkips memory s ↔ text = [] ∨ text = [charDot] := by
  have whole : (text.takeWhile fun _ => !false) = text :=
    List.takeWhile_eq_self_iff.mpr fun _ _ => rfl
  unfold RamfsSkips
  rw [strlen, string.spanUntil_eq _ short, whole, cString, string.readString_eq short,
    strcmp_eq_zero_iff string.nonzero (by decide)]
  apply or_congr_left
  rw [← List.length_eq_zero_iff]
  constructor
  · intro isZero
    have same := congrArg BitVec.toNat isZero
    rw [BitVec.toNat_ofNat, Nat.mod_eq_of_lt short] at same
    exact same
  · intro isZero
    rw [isZero]

theorem entryName (nonnull : header ≠ 0#64) (noWrap : header.toNat + 512 ≤ 2 ^ 64)
    (terminated : TerminatedIn memory header 100) :
    EntryName memory header (ramfsName memory header) (dropDotSlash (headerName memory header)) := by
  obtain ⟨string, short⟩ := terminated.stringAt
  change StringAt memory header (headerName memory header) at string
  change (headerName memory header).length < 100 at short
  generalize headerName memory header = text at string short ⊢
  have proper : ∀ c ∈ text.take 2, c ≠ 0#8 :=
    fun c membership => string.nonzero c (List.mem_of_mem_take membership)
  have leads : strncmp (cString memory header) dotSlash 2 = 0 ↔
      text.take 2 = [charDot, charSlash] := by
    rw [cString, string.readString_eq (by omega), strncmp, strcmp_eq_zero_iff proper (by decide)]
    rfl
  unfold ramfsName dropDotSlash
  by_cases dotted : text.take 2 = [charDot, charSlash]
  · rw [if_pos (leads.mpr dotted), if_pos dotted]
    have long : 2 ≤ text.length := by
      have lengths := congrArg List.length dotted
      rw [List.length_take, List.length_cons, List.length_singleton] at lengths
      omega
    have behind : StringAt memory (header + 2#64) (text.drop 2) := by
      rw [← List.take_append_drop 2 text, dotted] at string
      exact string.drop
    have shorter : (text.drop 2).length < 2 ^ 64 := by
      rw [List.length_drop]
      omega
    refine ⟨by bv_omega, behind, ?_, skips_iff behind shorter⟩
    rw [List.length_drop]
    bv_omega
  · rw [if_neg (leads.not.mpr dotted), if_neg dotted]
    exact ⟨nonnull, string, by omega, skips_iff string (by omega)⟩

/-- What an entry is looked up under is its path, its file is made under the last component,
and the string that is read ends in the field `name`. -/
structure EntryPath (parent : U64) (ramfs : Ramfs) (header : U64) : Prop where
  lookedUp : ramfsEntryLookups parent ramfs header = pathComponents (headerPath ramfs.memory header)
  made : ∀ name, ramfsEntryFile parent ramfs header = some name →
    (ramfsEntryLookups parent ramfs header).getLast? = some name
  own : (cString ramfs.memory header).length < 100

/-- The field `name` ends its text, the field `prefix` adds nothing to it, and the parents
are there, or are made.  A file that has no name at all takes none that `strtok` still has. -/
structure PathUnderstood (parent : U64) (ramfs : Ramfs) (header : U64) : Prop where
  terminated : TerminatedIn ramfs.memory header 100
  noPrefix : pathComponents (headerPath ramfs.memory header) =
    pathComponents (headerName ramfs.memory header)
  parents : ComponentsFound (ramfsIsDirectory ramfs.memory header) (ramfsMode ramfs.memory header)
    ramfs.vfs parent (pathComponents (headerName ramfs.memory header)).dropLast
  nameless : pathComponents (headerName ramfs.memory header) = [] →
    RamfsSkips ramfs.memory (ramfsName ramfs.memory header) ∨
      ramfsIsDirectory ramfs.memory header = true ∨ ramfsFileName ramfs ⟨0#64, parent⟩ = none

theorem headerPath_le (memory : Memory) (header : U64) :
    (pathComponents (headerName memory header)).length ≤
      (pathComponents (headerPath memory header)).length := by
  unfold headerPath
  split_ifs with empty
  · exact Nat.le_refl _
  · exact pathComponents_append_le _ _ empty

/-- What is looked up, where the field ends the name. -/
theorem ramfsEntryLookups_eq (nonnull : header ≠ 0#64) (noWrap : header.toNat + 512 ≤ 2 ^ 64)
    (terminated : TerminatedIn ramfs.memory header 100) :
    ramfsEntryLookups parent ramfs header =
      walkComponents (ramfsIsDirectory ramfs.memory header) (ramfsMode ramfs.memory header) ramfs.vfs
        parent (pathComponents (headerName ramfs.memory header)) := by
  have named := entryName nonnull noWrap terminated
  have room := named.room
  unfold ramfsEntryLookups pathComponents
  by_cases skips : RamfsSkips ramfs.memory (ramfsName ramfs.memory header)
  · rw [if_pos skips]
    rcases named.skips.mp skips with empty | dot
    · rw [empty]
      rfl
    · rw [if_pos dot]
      rfl
  · rw [if_neg skips, if_neg (fun dot => skips (named.skips.mpr (.inr dot)))]
    have split := tokens_components (dropDotSlash (headerName ramfs.memory header))
    have short := split.length_le
    exact ramfsLookups_eq split named.string named.nonnull room (if_neg named.nonnull) (by omega)

theorem ramfsEntryFile_last (nonnull : header ≠ 0#64) (noWrap : header.toNat + 512 ≤ 2 ^ 64)
    (terminated : TerminatedIn ramfs.memory header 100)
    (hasName : pathComponents (headerName ramfs.memory header) ≠ []) {name : List U8}
    (made : ramfsEntryFile parent ramfs header = some name) :
    (ramfsEntryLookups parent ramfs header).getLast? = some name := by
  have named := entryName nonnull noWrap terminated
  have room := named.room
  rw [ramfsEntryLookups_eq nonnull noWrap terminated]
  unfold ramfsEntryFile at made
  split_ifs at made with none
  rw [not_or] at none
  have noDot : dropDotSlash (headerName ramfs.memory header) ≠ [charDot] :=
    fun dot => none.1 (named.skips.mpr (.inr dot))
  rw [pathComponents, if_neg noDot] at hasName ⊢
  rw [Bool.eq_false_iff.mpr none.2]
  dsimp only at made
  rcases result : ramfsParseComponents false (ramfsMode ramfs.memory header) (2 ^ 64)
    (ramfs.strtok (ramfsName ramfs.memory header)).2 (ramfs.strtok (ramfsName ramfs.memory header)).1
    parent with _ | ⟨_ | stop, after⟩
  · rw [result] at made
    cases made
  · rw [result] at made
    cases made
  · rw [result] at made
    exact ramfsFileName_eq (tokens_components _) named.string named.nonnull room
      (if_neg named.nonnull) (.inl hasName) result made

/-- A file that has no name. -/
theorem ramfsEntryFile_nameless (nonnull : header ≠ 0#64) (noWrap : header.toNat + 512 ≤ 2 ^ 64)
    (terminated : TerminatedIn ramfs.memory header 100)
    (nameless : pathComponents (headerName ramfs.memory header) = [])
    (taken : ¬(RamfsSkips ramfs.memory (ramfsName ramfs.memory header) ∨
      ramfsIsDirectory ramfs.memory header = true)) :
    ramfsEntryFile parent ramfs header = ramfsFileName ramfs ⟨0#64, parent⟩ := by
  have named := entryName nonnull noWrap terminated
  have noDot : dropDotSlash (headerName ramfs.memory header) ≠ [charDot] :=
    fun dot => taken (.inl (named.skips.mpr (.inr dot)))
  rw [pathComponents, if_neg noDot] at nameless
  have split := tokens_components (dropDotSlash (headerName ramfs.memory header))
  rw [nameless] at split
  cases split with
  | done gap =>
      have ended := Ramfs.strtok_end gap named.string named.room (if_neg named.nonnull)
      have loop : ramfsParseComponents false (ramfsMode ramfs.memory header) (2 ^ 64) ramfs 0#64
          parent = some (some ⟨0#64, parent⟩, ramfs) := rfl
      rw [ramfsEntryFile, if_neg taken, ended]
      dsimp only
      rw [loop]

/-- The headers whose path `ramfs_parse` understands. -/
theorem ramfs_entry_path_iff (parent : U64) (ramfs : Ramfs) (header : U64) (nonnull : header ≠ 0#64)
    (noWrap : header.toNat + 512 ≤ 2 ^ 64) :
    EntryPath parent ramfs header ↔ PathUnderstood parent ramfs header := by
  constructor
  · rintro ⟨lookedUp, made, own⟩
    have terminated := (cString_length_lt_iff (by decide)).mp own
    have walked := @ramfsEntryLookups_eq header parent ramfs nonnull noWrap terminated
    rw [walked] at lookedUp
    have long := headerPath_le ramfs.memory header
    rw [← lookedUp] at long
    refine ⟨terminated, ?_, (walkComponents_length_iff _ _ _).mp long, ?_⟩
    · rw [← lookedUp]
      exact (walkComponents_begins _ _ _).eq_of_length_le long
    · intro nameless
      by_contra taken
      rw [not_or, not_or] at taken
      have isMade := @ramfsEntryFile_nameless header parent ramfs nonnull noWrap terminated
        nameless (not_or.mpr ⟨taken.1, taken.2.1⟩)
      obtain ⟨name, isName⟩ := Option.ne_none_iff_exists'.mp taken.2.2
      have last := made name (isMade.trans isName)
      rw [walked, nameless] at last
      cases last
  · rintro ⟨terminated, noPrefix, parents, nameless⟩
    have walked := @ramfsEntryLookups_eq header parent ramfs nonnull noWrap terminated
    refine ⟨?_, ?_, (cString_length_lt_iff (by decide)).mpr terminated⟩
    · rw [walked, noPrefix]
      exact (walkComponents_begins _ _ _).eq_of_length_le
        ((walkComponents_length_iff _ _ _).mpr parents)
    · intro name made
      by_cases hasName : pathComponents (headerName ramfs.memory header) = []
      · have taken : ¬(RamfsSkips ramfs.memory (ramfsName ramfs.memory header) ∨
            ramfsIsDirectory ramfs.memory header = true) := by
          intro none
          rw [ramfsEntryFile, if_pos none] at made
          cases made
        rw [ramfsEntryFile_nameless nonnull noWrap terminated hasName taken] at made
        rw [not_or] at taken
        have nothing := ((nameless hasName).resolve_left taken.1).resolve_left taken.2
        rw [nothing] at made
        cases made
      · exact ramfsEntryFile_last nonnull noWrap terminated hasName made

/-- A header of the name `a`, with a prefix or without. -/
def namedArchive (text : List U8) : Memory := fun address =>
  if address = 0x100000#64 then charLowerA else text.getD (address - 0x100159#64).toNat 0#8

/-- An empty root at `0x10`. -/
def namedRamfs (text : List U8) : Ramfs where
  vfs := ⟨Function.update (fun _ => none) 0x10#64 (some (rootVnode ⟨0x20#64, rootName⟩)), 0x10#64,
    [0x30#64, 0x40#64]⟩
  memory := namedArchive text
  last := 0#64
  calls := []

theorem ramfs_entry_path_iff_named : EntryPath 0x10#64 (namedRamfs []) 0x100000#64 := by
  have isName : pathComponents (headerName (namedRamfs []).memory 0x100000#64) = [[charLowerA]] := by
    decide +kernel
  refine (ramfs_entry_path_iff 0x10#64 (namedRamfs []) 0x100000#64 (by decide) (by decide)).mpr
    ⟨⟨1, by decide, by decide +kernel⟩, by decide +kernel, ?_, ?_⟩
  · rw [isName]
    trivial
  · intro nameless
    rw [isName] at nameless
    cases nameless

/-- With the prefix `x` the path is `x/a`, and only `a` is looked up. -/
theorem ramfs_entry_loses_prefix :
    ¬∀ (parent : U64) (ramfs : Ramfs) (header : U64), header ≠ 0#64 →
      header.toNat + 512 ≤ 2 ^ 64 → EntryPath parent ramfs header := by
  intro claim
  have lookedUp := (claim 0x10#64 (namedRamfs [charLowerX]) 0x100000#64 (by decide)
    (by decide)).lookedUp
  have whole : pathComponents (headerPath (namedRamfs [charLowerX]).memory 0x100000#64) =
      [[charLowerX], [charLowerA]] := by decide +kernel
  have last : ramfsEntryLookups 0x10#64 (namedRamfs [charLowerX]) 0x100000#64 = [[charLowerA]] := by
    decide +kernel
  rw [whole, last] at lookedUp
  cases lookedUp

end Nekonix
