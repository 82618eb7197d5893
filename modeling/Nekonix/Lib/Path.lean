import Nekonix.Lib.CString

/-!
# Components of a path

What lies between the slashes of a path, and that `strtok` cuts a path into it.
-/

namespace Nekonix

variable {text before after : List U8}

/-- The nonempty parts of a path between its slashes. -/
def components (text : List U8) : List (List U8) := (text.splitOn charSlash).filter (· ≠ [])

theorem components_append (before after : List U8) :
    components (before ++ charSlash :: after) = components before ++ components after := by
  rw [components, List.splitOn_append_cons_self, List.filter_append]
  rfl

@[simp]
theorem components_nil : components [] = [] := by simp [components]

@[simp]
theorem components_slash (text : List U8) : components (charSlash :: text) = components text :=
  components_append [] text

theorem components_name (nonempty : text ≠ []) (noSlash : charSlash ∉ text) :
    components text = [text] := by
  rw [components, List.splitOn_eq_singleton noSlash]
  simp [nonempty]

theorem components_gap {gap : List U8} (slashes : ∀ c ∈ gap, c = charSlash) (text : List U8) :
    components (gap ++ text) = components text := by
  induction gap with
  | nil => rfl
  | cons c gap inductionHypothesis =>
      rw [slashes c List.mem_cons_self, List.cons_append, components_slash]
      exact inductionHypothesis fun c later => slashes c (List.mem_cons_of_mem _ later)

theorem components_slashes {gap : List U8} (slashes : ∀ c ∈ gap, c = charSlash) :
    components gap = [] := by
  rw [← List.append_nil gap, components_gap slashes, components_nil]

/-- The first token is the first component. -/
theorem FirstToken.components_eq {gap token rest : List U8}
    (first : FirstToken [charSlash] text gap token rest) :
    components text = token :: components rest.tail := by
  have gapSlashes : ∀ c ∈ gap, c = charSlash := by
    intro c membership
    simpa using first.skipped c membership
  have noSlash : charSlash ∉ token := by
    intro membership
    simpa using first.kept charSlash membership
  rw [first.split, components_gap gapSlashes]
  cases rest with
  | nil => rw [List.append_nil, components_name first.nonempty noSlash, List.tail_nil, components_nil]
  | cons c rest =>
      have isSlash : c = charSlash := by simpa using first.stops c rfl
      rw [isSlash, components_append, components_name first.nonempty noSlash]
      rfl

theorem tokens_components (text : List U8) : Tokens [charSlash] text (components text) := by
  induction isLength : text.length using Nat.strongRecOn generalizing text with
  | ind length inductionHypothesis =>
      by_cases slashes : ∀ c ∈ text, c = charSlash
      · rw [components_slashes slashes]
        exact .done fun c membership => by simp [slashes c membership]
      · push Not at slashes
        obtain ⟨c, here, notSlash⟩ := slashes
        have kept : [charSlash].contains c = false := by simpa using notSlash
        obtain ⟨gap, token, rest, first⟩ := exists_firstToken here kept
        rw [first.components_eq]
        exact .token first
          (inductionHypothesis _ (isLength ▸ first.tail_shorter) rest.tail rfl)

/-! Paths as an archive has them -/

/-- Without a leading `"./"`. -/
def dropDotSlash (text : List U8) : List U8 :=
  if text.take 2 = [charDot, charSlash] then text.drop 2 else text

/-- The components of a path from the archive's own directory on, which is `"."`. -/
def pathComponents (text : List U8) : List (List U8) :=
  if dropDotSlash text = [charDot] then [] else components (dropDotSlash text)

theorem components_dropDotSlash_le (text : List U8) :
    (components (dropDotSlash text)).length ≤ (components text).length := by
  unfold dropDotSlash
  split_ifs with leads
  · have whole : text = [charDot] ++ charSlash :: text.drop 2 := by
      conv_lhs => rw [← List.take_append_drop 2 text, leads]
      rfl
    conv_rhs => rw [whole, components_append, List.length_append]
    exact Nat.le_add_left _ _
  · exact Nat.le_refl _

theorem pathComponents_le (text : List U8) :
    (pathComponents text).length ≤ (components text).length := by
  unfold pathComponents
  split_ifs
  · exact Nat.zero_le _
  · exact components_dropDotSlash_le text

/-- A path has no fewer components than what follows its first part. -/
theorem pathComponents_append_le (before after : List U8) (nonempty : before ≠ []) :
    (pathComponents after).length ≤ (pathComponents (before ++ charSlash :: after)).length := by
  by_cases isDot : before = [charDot]
  · have dropped : dropDotSlash (before ++ charSlash :: after) = after := by
      rw [isDot]
      rfl
    conv_rhs => rw [pathComponents, dropped]
    by_cases alsoDot : after = [charDot]
    · rw [alsoDot]
      decide
    · rw [if_neg alsoDot]
      exact pathComponents_le after
  · have dropped : ∃ rest, dropDotSlash (before ++ charSlash :: after) =
        rest ++ charSlash :: after := by
      unfold dropDotSlash
      split_ifs with leads
      · refine ⟨before.drop 2, ?_⟩
        match before, nonempty, isDot, leads with
        | [c], _, isDot, leads =>
            have first : c = charDot := by simpa using congrArg List.head? leads
            exact absurd (by rw [first]) isDot
        | _ :: _ :: _, _, _, _ => rfl
      · exact ⟨before, rfl⟩
    obtain ⟨rest, isRest⟩ := dropped
    have notDot : rest ++ charSlash :: after ≠ [charDot] := by
      intro same
      have slash : charSlash ∈ rest ++ charSlash :: after := by simp
      rw [same] at slash
      exact absurd slash (by decide)
    conv_rhs => rw [pathComponents, isRest, if_neg notDot, components_append, List.length_append]
    exact Nat.le_add_left_of_le (pathComponents_le after)

end Nekonix
