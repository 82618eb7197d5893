import Nekonix.Dev.Vfs.Tree

/-!
# Lookup along the components of a path

`vfs_traverse_path` cuts the path with `strtok` while it descends.  What it
returns is the descent from the root along the tokens of the path.
-/

namespace Nekonix

open LinkedList

/-- Follow names from a node down; NULL where a name is missing. -/
def descend (vfs : Vfs) : (node : U64) → (names : List (List U8)) → Option U64
  | node, [] => some node
  | node, name :: names => do
      let child ← vfsSearchNode vfs node name
      if child = 0#64 then
        some 0#64
      else
        descend vfs child names

variable {vfs : Vfs} {memory : Memory} {last str s node : U64} {text : List U8}
  {names : List (List U8)}

/-! With the memory that holds the path -/

/-- What a lookup leaves beside its node: the memory, and `strtok`'s `last`. -/
abbrev AfterTokens := Memory × U64

/-- The loop of `vfs_traverse_path`, with what it leaves. -/
def traverseTokensIn (vfs : Vfs) :
    (fuel : Nat) → (memory : Memory) → (last token node : U64) → Option (U64 × AfterTokens)
  | 0, _, _, _, _ => none
  | fuel + 1, memory, last, token, node =>
      if token = 0#64 then
        some (node, memory, last)
      else do
        let node ← vfsSearchNode vfs node (cString memory token)
        if node = 0#64 then
          some (0#64, memory, last)
        else
          let (token, memory, last) := strtok memory last 0#64 [charSlash]
          traverseTokensIn vfs fuel memory last token node

/-- `strdup`: the copy, NULL if `kmalloc` fails, and the state after the call. -/
def strdup (vfs : Vfs) (memory : Memory) (s : U64) : U64 × Vfs × Memory :=
  let (copy, vfs) := vfs.kmalloc
  if copy = 0#64 then
    (0#64, vfs, memory)
  else
    (copy, vfs, strcpy memory copy (cString memory s))

/-- `vfs_traverse_path` with a path in memory: the node, and the state after the call. -/
def vfsTraversePathIn (vfs : Vfs) (memory : Memory) (last path : U64) :
    Option (U64 × Vfs × AfterTokens) :=
  if vfs.root = 0#64 ∨ path = 0#64 then
    some (0#64, vfs, memory, last)
  else if strcmp (cString memory path) [charSlash] = 0 then
    some (vfs.root, vfs, memory, last)
  else
    let (pathCopy, vfs, memory) := strdup vfs memory path
    if pathCopy = 0#64 then
      some (0#64, vfs, memory, last)
    else do
      let (token, memory, last) := strtok memory last pathCopy [charSlash]
      let (node, after) ← traverseTokensIn vfs (2 ^ 64) memory last token vfs.root
      some (node, vfs, after)

def vfsLookupIn (vfs : Vfs) (memory : Memory) (last path : U64) :
    Option (U64 × Vfs × AfterTokens) :=
  vfsTraversePathIn vfs memory last path

/-- The node does not depend on what is left. -/
theorem traverseTokens_eq_map (fuel : Nat) (token : U64) :
    traverseTokens vfs fuel memory last token node =
      (traverseTokensIn vfs fuel memory last token node).map Prod.fst := by
  induction fuel generalizing memory last token node with
  | zero => rfl
  | succ fuel inductionHypothesis =>
      unfold traverseTokens traverseTokensIn
      split_ifs with ends
      · rfl
      · cases vfsSearchNode vfs node (cString memory token) with
        | none => rfl
        | some child =>
            simp only [Option.bind_eq_bind, Option.bind_some]
            split_ifs with missing
            · rfl
            · exact inductionHypothesis _

/-- The loop of `vfs_traverse_path`, from the call of `strtok` on: it descends along the
tokens and writes nothing outside the string. -/
theorem traverseTokensIn_eq (split : Tokens [charSlash] text names)
    (string : StringAt memory s text) (nonnull : s ≠ 0#64)
    (noWrap : s.toNat + text.length < 2 ^ 64)
    (current : (if str = 0#64 then last else str) = s) {fuel : Nat}
    (enough : names.length < fuel) :
    ∃ after : AfterTokens,
      (∀ address, ¬FlatMemory.InRange s text.length address → after.1 address = memory address) ∧
      traverseTokensIn vfs fuel (strtok memory last str [charSlash]).2.1
        (strtok memory last str [charSlash]).2.2 (strtok memory last str [charSlash]).1 node =
      (descend vfs node names).map fun found => (found, after) := by
  induction split generalizing memory last str s node fuel with
  | done gap =>
      rw [strtok_end gap string (by omega) current]
      cases fuel with
      | zero => cases enough
      | succ fuel => exact ⟨(memory, last), fun _ _ => rfl, by simp [traverseTokensIn, descend]⟩
  | @token text gap token rest names first further inductionHypothesis =>
      have tokenized := strtok_token first string nonnull noWrap current
      have position := tokenized.position first noWrap
      have shorter := first.tail_shorter
      generalize strtok memory last str [charSlash] = result at tokenized position ⊢
      obtain ⟨found, next, waiting⟩ := result
      change waiting.toNat = s.toNat + (text.length - rest.tail.length) at position
      have tokenLength : token.length < 2 ^ 64 := by
        have lengths := congrArg List.length first.split
        rw [List.length_append, List.length_append] at lengths
        omega
      have name : cString next found = token := tokenized.found.readString_eq tokenLength
      cases fuel with
      | zero => cases enough
      | succ fuel =>
          rw [traverseTokensIn, if_neg tokenized.nonnull, name, descend]
          cases vfsSearchNode vfs node token with
          | none => exact ⟨(next, waiting), tokenized.outside, rfl⟩
          | some child =>
              simp only [Option.bind_eq_bind, Option.bind_some]
              split_ifs with missing
              · exact ⟨(next, waiting), tokenized.outside, rfl⟩
              · have waitingNonnull : waiting ≠ 0#64 := by
                  intro isNull
                  rw [isNull] at position
                  have positive : 0 < s.toNat := by bv_omega
                  have zero : (0#64).toNat = 0 := rfl
                  omega
                have room : waiting.toNat + rest.tail.length < 2 ^ 64 := by omega
                obtain ⟨after, outside, traversed⟩ :=
                  @inductionHypothesis next waiting 0#64 waiting child tokenized.further
                    waitingNonnull room (if_pos rfl) fuel (Nat.lt_of_succ_lt_succ enough)
                refine ⟨after, ?_, traversed⟩
                intro address apart
                refine (outside address ?_).trans (tokenized.outside address apart)
                intro within
                refine apart ?_
                unfold FlatMemory.InRange at within ⊢
                bv_omega

/-- The loop of `vfs_traverse_path` returns what the descent does. -/
theorem traverseTokens_eq (split : Tokens [charSlash] text names) (string : StringAt memory s text)
    (nonnull : s ≠ 0#64) (noWrap : s.toNat + text.length < 2 ^ 64)
    (current : (if str = 0#64 then last else str) = s) {fuel : Nat} (enough : names.length < fuel) :
    traverseTokens vfs fuel (strtok memory last str [charSlash]).2.1
        (strtok memory last str [charSlash]).2.2 (strtok memory last str [charSlash]).1 node =
      descend vfs node names := by
  obtain ⟨after, -, traversed⟩ :=
    @traverseTokensIn_eq vfs _ _ _ _ node _ _ split string nonnull noWrap current _ enough
  rw [traverseTokens_eq_map, traversed, Option.map_map]
  exact Option.map_id'

theorem stringAt_stringBlock {block : U64} (proper : ∀ c ∈ text, c ≠ 0#8)
    (noWrap : block.toNat + text.length < 2 ^ 64) :
    StringAt (stringBlock block text) block text :=
  stringAt_strcpy proper noWrap

/-- `vfs_lookup` of a path other than `"/"` is the descent along its tokens. -/
theorem vfsLookup_eq {block : U64} {supply : List U64} (rootNonnull : vfs.root ≠ 0#64)
    (proper : ∀ c ∈ text, c ≠ 0#8) (notRoot : text ≠ rootName)
    (supplied : vfs.supply = block :: supply) (nonnull : block ≠ 0#64)
    (room : block.toNat + text.length < 2 ^ 64) (split : Tokens [charSlash] text names)
    (last : U64) :
    vfsLookup vfs last text =
      (descend { vfs with supply } vfs.root names).map fun node => (node, { vfs with supply }) := by
  have different : strcmp text [charSlash] ≠ 0 := by
    rw [ne_eq, strcmp_eq_zero_iff proper (by decide)]
    exact notRoot
  have short := split.length_le
  have traversed := @traverseTokens_eq { vfs with supply } _ last block block vfs.root text names
    split (stringAt_stringBlock proper room) nonnull room (if_neg nonnull) (2 ^ 64) (by omega)
  simp only [vfsLookup, vfsTraversePath, if_neg rootNonnull, if_neg different, Vfs.kmalloc,
    supplied, if_neg nonnull]
  rw [traversed]
  cases descend { vfs with supply } vfs.root names <;> rfl

theorem vfsLookup_root (rootNonnull : vfs.root ≠ 0#64) (last : U64) :
    vfsLookup vfs last rootName = some (vfs.root, vfs) := by
  have same : strcmp rootName [charSlash] = 0 := by decide
  simp only [vfsLookup, vfsTraversePath, if_neg rootNonnull, if_pos same]

/-- With the path in memory `vfs_lookup` returns the same, and writes to its copy only. -/
theorem vfsLookupIn_eq {block path : U64} {supply : List U64} (rootNonnull : vfs.root ≠ 0#64)
    (string : StringAt memory path text) (pathNonnull : path ≠ 0#64)
    (supplied : vfs.supply = block :: supply) (nonnull : block ≠ 0#64)
    (room : block.toNat + text.length < 2 ^ 64) (split : Tokens [charSlash] text names)
    (last : U64) :
    ∃ after : AfterTokens,
      (∀ address, ¬FlatMemory.InRange block (text.length + 1) address →
        after.1 address = memory address) ∧
      vfsLookupIn vfs memory last path =
        (vfsLookup vfs last text).map fun result => (result.1, result.2, after) := by
  have nonzero := string.nonzero
  have isText : cString memory path = text := string.readString_eq (by omega)
  by_cases isRoot : text = rootName
  · have same : strcmp text [charSlash] = 0 := by
      rw [isRoot]
      decide
    refine ⟨(memory, last), fun _ _ => rfl, ?_⟩
    simp only [vfsLookupIn, vfsTraversePathIn, vfsLookup, vfsTraversePath, rootNonnull,
      pathNonnull, or_self, if_false, isText, same, if_true, Option.map_some]
  · have different : strcmp text [charSlash] ≠ 0 := by
      rw [ne_eq, strcmp_eq_zero_iff nonzero (by decide)]
      exact isRoot
    have copied : StringAt (strcpy memory block text) block text := stringAt_strcpy nonzero room
    have short := split.length_le
    obtain ⟨after, outside, traversed⟩ :=
      @traverseTokensIn_eq { vfs with supply } _ last block block vfs.root text names
        split copied nonnull room (if_neg nonnull) (2 ^ 64) (by omega)
    refine ⟨after, ?_, ?_⟩
    · intro address notCopy
      have notText : ¬FlatMemory.InRange block text.length address := by
        intro within
        exact notCopy (Nat.lt_succ_of_lt within)
      refine (outside address notText).trans (strcpy_outside ?_)
      rintro offset inside rfl
      exact notCopy (FlatMemory.inRange_offset block (by omega) (Nat.lt_succ_of_le inside))
    · rw [vfsLookup_eq rootNonnull nonzero isRoot supplied nonnull room split last]
      simp only [vfsLookupIn, vfsTraversePathIn, rootNonnull, pathNonnull, or_self, if_false,
        different, strdup, Vfs.kmalloc, supplied, nonnull, isText, traversed]
      cases descend { vfs with supply } vfs.root names <;> rfl

/-- Looking names up does not depend on the blocks to come. -/
theorem descend_supply (supply : List U64) :
    descend { vfs with supply } node names = descend vfs node names := by
  induction names generalizing node with
  | nil => rfl
  | cons name names inductionHypothesis =>
      rw [descend, descend]
      have same : vfsSearchNode { vfs with supply } node name = vfsSearchNode vfs node name := rfl
      rw [same]
      cases vfsSearchNode vfs node name with
      | none => rfl
      | some child =>
          simp only [Option.bind_eq_bind, Option.bind_some]
          split_ifs with missing
          · rfl
          · exact inductionHypothesis

/-! Paths of names -/

/-- A name: characters that neither end a string nor separate names. -/
structure ProperName (name : List U8) : Prop where
  nonempty : name ≠ []
  nonzero : ∀ c ∈ name, c ≠ 0#8
  noSlash : ∀ c ∈ name, c ≠ charSlash

variable {name : List U8}

theorem ProperName.not_delim (proper : ProperName name) :
    ∀ c ∈ name, ([charSlash] : List U8).contains c = false := by
  intro c membership
  simpa using proper.noSlash c membership

/-- A name alone. -/
theorem ProperName.tokens (proper : ProperName name) : Tokens [charSlash] name [name] := by
  have first : FirstToken [charSlash] name [] name [] :=
    ⟨by simp, by simp, proper.not_delim, proper.nonempty, by simp⟩
  exact .token first (.done (by simp))

/-- A name before a slash and the rest of a path. -/
theorem ProperName.tokens_cons (proper : ProperName name) (split : Tokens [charSlash] text names) :
    Tokens [charSlash] (name ++ charSlash :: text) (name :: names) := by
  have first : FirstToken [charSlash] (name ++ charSlash :: text) [] name (charSlash :: text) :=
    ⟨rfl, by simp, proper.not_delim, proper.nonempty, by simp⟩
  exact .token first split

/-- A slash before a path. -/
theorem Tokens.slash (split : Tokens [charSlash] text names) :
    Tokens [charSlash] (charSlash :: text) names := by
  cases split with
  | done gap => exact .done (by simpa using gap)
  | @token text gap token rest names first further =>
      have later : FirstToken [charSlash] (charSlash :: text) (charSlash :: gap) token rest := by
        refine ⟨?_, ?_, first.kept, first.nonempty, first.stops⟩
        · rw [first.split]
          rfl
        · simpa using first.skipped
      exact .token later further

end Nekonix
