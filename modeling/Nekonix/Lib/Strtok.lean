import Nekonix.Lib.CString
import Nekonix.Library.MaximalRun
import Nekonix.Library.Run

/-!
# Sequences of `strtok` calls

What `strtok(s, delim)` and the calls on NULL behind it return, and the bytes of the string
they read and write.
-/

namespace Nekonix

open FlatMemory Transition

/-- The addresses that `spanUntil` reads. -/
def spanReads (memory : Memory) (stops : U8 → Bool) : (fuel : Nat) → (s : U64) → List U64
  | 0, _ => []
  | fuel + 1, s =>
      if memory s = 0#8 then
        [s]
      else if stops (memory s) then
        [s]
      else
        s :: spanReads memory stops fuel (s + 1#64)

/-- The bytes of the string that `strtok` reads or writes. -/
def strtokAccesses (memory : Memory) (last str : U64) (delim : List U8) : List U64 :=
  let str := if str = 0#64 then last else str
  if str = 0#64 then
    []
  else
    let skipped := spanReads memory (fun c => !delim.contains c) (2 ^ 64) str
    let str := str + strspn memory str delim
    if memory str = 0#8 then
      skipped ++ [str]
    else
      let kept := spanReads memory (fun c => delim.contains c) (2 ^ 64) str
      skipped ++ [str] ++ kept ++ [str + strcspn memory str delim]

/-- The result of `strtok(str, delim)`, and of each `strtok(NULL, delim)` behind it. -/
def strtokCalls (memory : Memory) (last str : U64) (delim : List U8) :
    (count : Nat) → U64 × Memory × U64
  | 0 => strtok memory last str delim
  | count + 1 =>
      let (_, memory, last) := strtokCalls memory last str delim count
      strtok memory last 0#64 delim

/-- The bytes that call `count` of them reads or writes. -/
def strtokCallAccesses (memory : Memory) (last str : U64) (delim : List U8) :
    (count : Nat) → List U64
  | 0 => strtokAccesses memory last str delim
  | count + 1 =>
      let (_, memory, last) := strtokCalls memory last str delim count
      strtokAccesses memory last 0#64 delim

/-- What a call returns that is to find the characters `span` of the string at `s`. -/
def Returns (s : U64) (text : List U8) (span : Option (Nat × Nat))
    (result : U64 × Memory × U64) : Prop :=
  match span with
  | none => result.1 = 0#64
  | some (start, length) =>
      result.1 = s + BitVec.ofNat 64 start ∧
        StringAt result.2.1 result.1 ((text.drop start).take length)

/-- The calls return the longest substrings without a delimiter, in order, then NULL, and
they read and write nothing but the string at `s`. -/
structure Enumerates (memory : Memory) (last str s : U64) (delim text : List U8) : Prop where
  tokens : ∃ spans : List (Nat × Nat),
    spans.Pairwise (fun first second => first.1 < second.1) ∧
    (∀ span, span ∈ spans ↔ MaximalRun (· ∈ delim) text span.1 span.2) ∧
    ∀ count, Returns s text spans[count]? (strtokCalls memory last str delim count)
  inside : ∀ count, ∀ address ∈ strtokCallAccesses memory last str delim count,
    InRange s (text.length + 1) address

variable {memory : Memory} {last str s : U64} {delim text gap token rest : List U8}

/-- A string without a delimiter is its own token, and nothing is written. -/
theorem strtok_whole (string : StringAt memory s token) (nonempty : token ≠ [])
    (kept : ∀ c ∈ token, delim.contains c = false) (nonnull : s ≠ 0#64) :
    strtok memory last s delim = (s, memory, s + BitVec.ofNat 64 token.length) := by
  have first : FirstToken delim token [] token [] := ⟨by simp, by simp, kept, nonempty, by simp⟩
  have whole : StringAt memory s (token ++ []) := by rwa [List.append_nil]
  have notEnd : memory s ≠ 0#8 := by
    cases token with
    | nil => exact (nonempty rfl).elim
    | cons head token => exact string.1.symm ▸ string.2.1
  have skipped : s + strspn memory s delim = s := by
    rw [first.strspn_eq string string.short, List.length_nil, BitVec.add_zero]
  simp only [strtok, if_neg nonnull, skipped, if_neg notEnd, first.strcspn_eq whole string.short,
    string.terminator]
  rw [if_neg (not_not.mpr rfl)]

/-! The calls behind the first one -/

theorem strtokCalls_succ (memory : Memory) (last str : U64) (delim : List U8) (count : Nat) :
    strtokCalls memory last str delim (count + 1) =
      strtokCalls (strtok memory last str delim).2.1 (strtok memory last str delim).2.2 0#64 delim
        count := by
  induction count with
  | zero => rfl
  | succ count inductionHypothesis => rw [strtokCalls, inductionHypothesis, strtokCalls]

theorem strtokCallAccesses_succ (memory : Memory) (last str : U64) (delim : List U8)
    (count : Nat) :
    strtokCallAccesses memory last str delim (count + 1) =
      strtokCallAccesses (strtok memory last str delim).2.1 (strtok memory last str delim).2.2
        0#64 delim count := by
  cases count with
  | zero => rfl
  | succ count => rw [strtokCallAccesses, strtokCalls_succ, strtokCallAccesses]

/-! The accesses of a call -/

theorem self_mem_spanReads (stops : U8 → Bool) {fuel : Nat} (positive : fuel ≠ 0) :
    s ∈ spanReads memory stops fuel s := by
  obtain ⟨fuel, rfl⟩ := Nat.exists_eq_succ_of_ne_zero positive
  rw [spanReads]
  split_ifs <;> exact List.mem_cons_self

/-- A loop over a string stops at its terminator. -/
theorem StringAt.spanReads_inside (string : StringAt memory s text) {stops : U8 → Bool}
    {fuel : Nat} {address : U64} (read : address ∈ spanReads memory stops fuel s) :
    ∃ offset ≤ text.length, address = s + BitVec.ofNat 64 offset := by
  induction text generalizing s fuel with
  | nil =>
      cases fuel with
      | zero => cases read
      | succ fuel =>
          have ended : memory s = 0#8 := string
          rw [spanReads, if_pos ended, List.mem_singleton] at read
          exact ⟨0, le_refl _, by rw [read, BitVec.add_zero]⟩
  | cons first text inductionHypothesis =>
      cases fuel with
      | zero => cases read
      | succ fuel =>
          rw [spanReads, if_neg (string.1.symm ▸ string.2.1)] at read
          have here : address = s → ∃ offset ≤ (first :: text).length,
              address = s + BitVec.ofNat 64 offset :=
            fun isFirst => ⟨0, Nat.zero_le _, by rw [isFirst, BitVec.add_zero]⟩
          split_ifs at read
          · exact here (List.mem_singleton.mp read)
          · rcases List.mem_cons.mp read with isFirst | later
            · exact here isFirst
            · obtain ⟨offset, below, rfl⟩ := inductionHypothesis string.2.2 later
              exact ⟨offset + 1, Nat.succ_le_succ below, StringAt.add_succ s offset⟩

/-- A string is delimiters only, or it has a first token. -/
theorem gap_or_firstToken (delim text : List U8) : (∀ c ∈ text, delim.contains c = true) ∨
    ∃ gap token rest, FirstToken delim text gap token rest := by
  refine or_iff_not_imp_left.mpr fun notGap => ?_
  push Not at notGap
  obtain ⟨c, here, kept⟩ := notGap
  rw [ne_eq, Bool.not_eq_true] at kept
  exact exists_firstToken here kept

/-- A call on a string reads and writes nothing else. -/
theorem strtokAccesses_inside (string : StringAt memory s text)
    (current : (if str = 0#64 then last else str) = s) {address : U64}
    (accessed : address ∈ strtokAccesses memory last str delim) :
    InRange s (text.length + 1) address := by
  have short := string.short
  have inString : ∀ offset ≤ text.length,
      InRange s (text.length + 1) (s + BitVec.ofNat 64 offset) :=
    fun offset below => inRange_offset s (by omega) (by omega)
  have skipped : ∀ address ∈ spanReads memory (fun c => !delim.contains c) (2 ^ 64) s,
      InRange s (text.length + 1) address := by
    intro address read
    obtain ⟨offset, below, rfl⟩ := string.spanReads_inside read
    exact inString offset below
  unfold strtokAccesses at accessed
  simp only [current] at accessed
  by_cases isNull : s = 0#64
  · rw [if_pos isNull] at accessed
    cases accessed
  rw [if_neg isNull] at accessed
  rcases gap_or_firstToken delim text with gapOnly | ⟨gap, token, rest, first⟩
  · have isEnd : strspn memory s delim = BitVec.ofNat 64 text.length := by
      rw [strspn, string.spanUntil_eq _ short, List.takeWhile_eq_self_iff.mpr]
      simpa using gapOnly
    rw [isEnd, if_pos string.terminator, List.mem_append, List.mem_singleton] at accessed
    rcases accessed with read | rfl
    · exact skipped address read
    · exact inString _ (le_refl _)
  · have lengths := congrArg List.length first.split
    rw [List.length_append, List.length_append] at lengths
    have atToken : StringAt memory (s + BitVec.ofNat 64 gap.length) (token ++ rest) := by
      have whole := string
      rw [first.split] at whole
      exact whole.drop
    have notEnd : memory (s + BitVec.ofNat 64 gap.length) ≠ 0#8 := by
      cases token with
      | nil => exact (first.nonempty rfl).elim
      | cons head token => exact atToken.1.symm ▸ atToken.2.1
    rw [first.strspn_eq string short, if_neg notEnd, first.strcspn_eq atToken short] at accessed
    simp only [List.mem_append, List.mem_singleton] at accessed
    rcases accessed with ((read | rfl) | read) | rfl
    · exact skipped address read
    · exact inString _ (by omega)
    · obtain ⟨offset, below, rfl⟩ := atToken.spanReads_inside read
      rw [List.length_append] at below
      rw [BitVec.add_assoc, ← BitVec.ofNat_add]
      exact inString _ (by omega)
    · rw [BitVec.add_assoc, ← BitVec.ofNat_add]
      exact inString _ (by omega)

/-! The tokens of the calls -/

/-- Where there is no token, NULL is returned for as long as nothing else waits. -/
theorem enumerates_gap (gapOnly : ∀ c ∈ text, delim.contains c = true)
    (string : StringAt memory s text) (current : (if str = 0#64 then last else str) = s)
    (resumes : str = 0#64 ∨ last = 0#64) : Enumerates memory last str s delim text := by
  have once := strtok_end gapOnly string string.short current
  have again : strtok memory last 0#64 delim = (0#64, memory, last) := by
    rcases resumes with rfl | rfl
    · exact once
    · rfl
  have always : ∀ count, strtokCalls memory last str delim count = (0#64, memory, last) := by
    intro count
    induction count with
    | zero => exact once
    | succ count inductionHypothesis =>
        rw [strtokCalls, inductionHypothesis]
        exact again
  refine ⟨⟨[], List.Pairwise.nil, ?_, fun count => congrArg Prod.fst (always count)⟩, ?_⟩
  · intro span
    refine ⟨fun listed => (List.not_mem_nil listed).elim, fun maximal => ?_⟩
    refine (MaximalRun.not_of_stops ?_ maximal).elim
    simpa using gapOnly
  · intro count address accessed
    cases count with
    | zero => exact strtokAccesses_inside string current accessed
    | succ count =>
        rw [strtokCallAccesses, always count] at accessed
        rcases resumes with rfl | rfl
        · exact strtokAccesses_inside string current accessed
        · cases accessed

/-- The rest of a string is a part of it. -/
theorem Tokenized.inRange_further {next : Memory}
    (tokenized : Tokenized memory s text gap token rest str next last)
    (first : FirstToken delim text gap token rest) (noWrap : s.toNat + text.length < 2 ^ 64)
    {address : U64} (inside : InRange last (rest.tail.length + 1) address) :
    InRange s (text.length + 1) address := by
  have position := tokenized.position first noWrap
  have shorter := first.tail_shorter
  unfold InRange at *
  bv_omega

/-- The tokens of a string are the first one and those behind it. -/
theorem FirstToken.maximalRun_iff (first : FirstToken delim text gap token rest)
    {start length : Nat} : MaximalRun (· ∈ delim) text start length ↔
      (start = gap.length ∧ length = token.length) ∨
        ∃ later, start = gap.length + token.length + 1 + later ∧
          MaximalRun (· ∈ delim) rest.tail later length := by
  have gapStops : ∀ c ∈ gap, c ∈ delim := by simpa using first.skipped
  have tokenKeeps : ∀ c ∈ token, c ∉ delim := by simpa using first.kept
  have restStops : ∀ c ∈ rest.head?, c ∈ delim := by simpa using first.stops
  rw [first.split]
  constructor
  · exact MaximalRun.first_or_behind gapStops tokenKeeps restStops
  · rintro (⟨rfl, rfl⟩ | ⟨later, rfl, maximal⟩)
    · exact MaximalRun.first gapStops tokenKeeps restStops first.nonempty
    · exact MaximalRun.behind restStops maximal

/-- A call that found the first token, and calls that enumerate the rest. -/
theorem enumerates_token (first : FirstToken delim text gap token rest)
    (string : StringAt memory s text) (nonnull : s ≠ 0#64)
    (noWrap : s.toNat + text.length < 2 ^ 64) (current : (if str = 0#64 then last else str) = s)
    (further : Enumerates (strtok memory last str delim).2.1 (strtok memory last str delim).2.2
      0#64 (strtok memory last str delim).2.2 delim rest.tail) :
    Enumerates memory last str s delim text := by
  have tokenized := strtok_token first string nonnull noWrap current
  obtain ⟨⟨spans, ordered, complete, returned⟩, inside⟩ := further
  have lengths := congrArg List.length first.split
  rw [List.length_append, List.length_append] at lengths
  have moved : ∀ position, (text.drop (gap.length + token.length + 1 + position)) =
      rest.tail.drop position := by
    intro position
    rw [first.split, Nat.add_assoc, Nat.add_assoc, List.drop_length_add_append,
      List.drop_length_add_append, ← List.drop_one, List.drop_drop]
  let later : Nat × Nat → Nat × Nat := fun span => (gap.length + token.length + 1 + span.1, span.2)
  refine ⟨⟨(gap.length, token.length) :: spans.map later, ?_, ?_, ?_⟩, ?_⟩
  · rw [List.pairwise_cons, List.pairwise_map]
    refine ⟨?_, ordered.imp fun less => Nat.add_lt_add_left less _⟩
    intro span listed
    obtain ⟨earlier, -, rfl⟩ := List.mem_map.mp listed
    dsimp only [later]
    omega
  · rintro ⟨start, length⟩
    rw [first.maximalRun_iff, List.mem_cons, List.mem_map, Prod.mk.injEq]
    refine or_congr_right ?_
    constructor
    · rintro ⟨span, listed, isSpan⟩
      cases isSpan
      exact ⟨span.1, rfl, (complete span).mp listed⟩
    · rintro ⟨position, rfl, maximal⟩
      exact ⟨(position, length), (complete (position, length)).mpr maximal, rfl⟩
  · intro count
    cases count with
    | zero =>
        refine ⟨tokenized.begins, ?_⟩
        have whole : (text.drop gap.length).take token.length = token := by
          rw [first.split, List.drop_left, List.take_left]
        rw [whole]
        exact tokenized.found
    | succ count =>
        rw [strtokCalls_succ, List.getElem?_cons_succ, List.getElem?_map]
        have result := returned count
        cases span : spans[count]? with
        | none =>
            rw [span] at result
            exact result
        | some span' =>
            rw [span] at result
            obtain ⟨pointer, found⟩ := result
            have maximal := (complete span').mp (List.mem_of_getElem? span)
            have inTail := maximal.inside
            have positive := maximal.nonempty
            rw [List.length_tail] at inTail
            refine ⟨?_, ?_⟩
            · have offset : text.length - rest.tail.length + span'.1 =
                  gap.length + token.length + 1 + span'.1 := by
                rw [List.length_tail]
                omega
              rw [pointer, tokenized.waits, BitVec.add_assoc, ← BitVec.ofNat_add, offset]
            · rw [moved]
              exact found
  · intro count address accessed
    cases count with
    | zero => exact strtokAccesses_inside string current accessed
    | succ count =>
        rw [strtokCallAccesses_succ] at accessed
        exact tokenized.inRange_further first noWrap (inside count address accessed)

/-- The calls enumerate the tokens, unless there is none and an earlier string waits. -/
theorem enumerates (string : StringAt memory s text) (nonnull : s ≠ 0#64)
    (noWrap : s.toNat + text.length < 2 ^ 64) (current : (if str = 0#64 then last else str) = s)
    (resumes : (∀ c ∈ text, delim.contains c = true) → str = 0#64 ∨ last = 0#64) :
    Enumerates memory last str s delim text := by
  induction isLength : text.length using Nat.strongRecOn generalizing memory last str s text with
  | ind length inductionHypothesis =>
      rcases gap_or_firstToken delim text with gapOnly | ⟨gap, token, rest, first⟩
      · exact enumerates_gap gapOnly string current (resumes gapOnly)
      · have tokenized := strtok_token first string nonnull noWrap current
        have position := tokenized.position first noWrap
        have shorter := first.tail_shorter
        refine enumerates_token first string nonnull noWrap current ?_
        refine inductionHypothesis _ (isLength ▸ shorter) tokenized.further ?_ ?_ rfl
          (fun _ => .inl rfl) rfl
        · bv_omega
        · omega

/-! What happened before -/

/-- An earlier call, with the memory it found. -/
structure StrtokCall where
  memory : Memory
  str : U64
  delim : List U8

/-- `last` after a call. -/
def StrtokCall.waits (last : U64) (call : StrtokCall) : U64 :=
  (strtok call.memory last call.str call.delim).2.2

/-- The string a call works on, if there is one, lies outside the `size` bytes at `s`. -/
def StrtokCall.Elsewhere (s : U64) (size : Nat) (last : U64) (call : StrtokCall) : Prop :=
  let current := if call.str = 0#64 then last else call.str
  current = 0#64 ∨ ∃ text, StringAt call.memory current text ∧
    current.toNat + text.length < 2 ^ 64 ∧
    ∀ offset ≤ text.length, ¬InRange s size (current + BitVec.ofNat 64 offset)

/-- Earlier calls on other strings, from the first one on. -/
abbrev StrtokHistory (s : U64) (size : Nat) (calls : List StrtokCall) (last : U64) : Prop :=
  Run (guarded StrtokCall.waits (StrtokCall.Elsewhere s size)) 0#64 calls last

/-- What waits after a call on another string is part of that string. -/
theorem StrtokCall.Elsewhere.waits {size : Nat} {call : StrtokCall}
    (elsewhere : call.Elsewhere s size last) (before : last = 0#64 ∨ ¬InRange s size last) :
    call.waits last = 0#64 ∨ ¬InRange s size (call.waits last) := by
  unfold StrtokCall.waits
  by_cases isNull : (if call.str = 0#64 then last else call.str) = 0#64
  · have unchanged : strtok call.memory last call.str call.delim = (0#64, call.memory, last) := by
      simp only [strtok, isNull, if_true]
    rw [unchanged]
    exact before
  · obtain ⟨text, string, noWrap, apart⟩ := elsewhere.resolve_left isNull
    rcases gap_or_firstToken call.delim text with gapOnly | ⟨gap, token, rest, first⟩
    · rw [strtok_end gapOnly string string.short rfl]
      exact before
    · rw [(strtok_token first string isNull noWrap rfl).waits]
      exact .inr (apart _ (Nat.sub_le _ _))

theorem StrtokHistory.waits {size : Nat} {calls : List StrtokCall}
    (history : StrtokHistory s size calls last) : last = 0#64 ∨ ¬InRange s size last := by
  refine history.invariant (fun last => last = 0#64 ∨ ¬InRange s size last) (.inl rfl) ?_
  rintro last call next before ⟨elsewhere, rfl⟩
  exact elsewhere.waits before

/-- A string without a token leaves `last` where it was, and the next call goes on there. -/
theorem not_enumerates_gap (gapOnly : ∀ c ∈ text, delim.contains c = true)
    (string : StringAt memory s text) (nonnull : s ≠ 0#64) (waiting : last ≠ 0#64)
    (outside : ¬InRange s (text.length + 1) last) : ¬Enumerates memory last s s delim text := by
  intro enumerates
  have current : (if s = 0#64 then last else s) = s := if_neg nonnull
  have once := strtok_end gapOnly string string.short current
  have second : strtokCallAccesses memory last s delim 1 =
      strtokAccesses memory last 0#64 delim := by
    rw [strtokCallAccesses_succ, once]
    rfl
  refine outside (enumerates.inside 1 last ?_)
  have first := @self_mem_spanReads memory last (fun c => !delim.contains c) (2 ^ 64) (by decide)
  rw [second]
  unfold strtokAccesses
  simp only [if_true, if_neg waiting]
  split_ifs
  · exact List.mem_append_left _ first
  · simp only [List.mem_append]
    exact .inl (.inl (.inl first))

/-- After any calls on other strings, the calls on a string return its tokens and then NULL
exactly if it has a token or no earlier call found one. -/
theorem strtok_enumerates_iff {calls : List StrtokCall} (delim : List U8)
    (string : StringAt memory s text) (nonnull : s ≠ 0#64)
    (noWrap : s.toNat + text.length < 2 ^ 64)
    (history : StrtokHistory s (text.length + 1) calls last) :
    Enumerates memory last s s delim text ↔ (∃ c ∈ text, c ∉ delim) ∨ last = 0#64 := by
  have hasToken : (∃ c ∈ text, c ∉ delim) ↔ ¬∀ c ∈ text, delim.contains c = true := by
    simp
  rw [hasToken]
  constructor
  · intro enumerates
    by_contra neither
    rw [not_or, not_not] at neither
    obtain ⟨gapOnly, waiting⟩ := neither
    exact not_enumerates_gap gapOnly string nonnull waiting
      (history.waits.resolve_left waiting) enumerates
  · intro either
    refine enumerates string nonnull noWrap (if_neg nonnull) fun gapOnly => ?_
    exact .inr (either.resolve_left (not_not.mpr gapOnly))

/-- The string `a b` at address 0x100, the string ` ` at address 0x200, and zeros. -/
def twoStrings : Memory := fun address =>
  if address = 0x100#64 then charLowerA
  else if address = 0x101#64 then charSpace
  else if address = 0x102#64 then charLowerX
  else if address = 0x200#64 then charSpace
  else 0#8

theorem twoStrings_letters : StringAt twoStrings 0x100#64 [charLowerA, charSpace, charLowerX] :=
  ⟨rfl, by decide, rfl, by decide, rfl, by decide, rfl⟩

theorem strtok_enumerates_iff_letters :
    Enumerates twoStrings 0#64 0x100#64 0x100#64 [charSpace] [charLowerA, charSpace, charLowerX] :=
  (strtok_enumerates_iff [charSpace] twoStrings_letters (by decide) (by decide)
    (@Run.nil _ _ (guarded StrtokCall.waits (StrtokCall.Elsewhere 0x100#64 4)) 0#64)).mpr
    (.inl ⟨charLowerA, by decide, by decide⟩)

/-- After a call that found a token, a string of delimiters ends in the token behind it. -/
theorem strtok_returns_to_earlier : ∃ memory last,
    StrtokHistory 0x200#64 2 [⟨twoStrings, 0x100#64, [charSpace]⟩] last ∧
      memory = (strtok twoStrings 0#64 0x100#64 [charSpace]).2.1 ∧
      StringAt memory 0x200#64 [charSpace] ∧
      (strtokCalls memory last 0x200#64 [charSpace] 0).1 = 0#64 ∧
      (strtokCalls memory last 0x200#64 [charSpace] 1).1 = 0x102#64 ∧
      ¬Enumerates memory last 0x200#64 0x200#64 [charSpace] [charSpace] := by
  have elsewhere : StrtokCall.Elsewhere 0x200#64 2 0#64 ⟨twoStrings, 0x100#64, [charSpace]⟩ := by
    refine .inr ⟨_, twoStrings_letters, by decide, fun offset below => ?_⟩
    simp only [List.length_cons, List.length_nil] at below
    unfold InRange
    dsimp only
    rw [if_neg (by decide)]
    bv_omega
  have second : (strtokCalls (strtok twoStrings 0#64 0x100#64 [charSpace]).2.1
      (strtok twoStrings 0#64 0x100#64 [charSpace]).2.2 0x200#64 [charSpace] 1).1 = 0x102#64 := by
    decide +kernel
  refine ⟨_, _, Run.single ⟨elsewhere, rfl⟩, rfl, ?_, ?_, second, ?_⟩
  · refine ⟨by decide +kernel, by decide, ?_⟩
    unfold StringAt
    decide +kernel
  · decide +kernel
  · rintro ⟨⟨spans, -, complete, returned⟩, -⟩
    have none : spans = [] := by
      refine List.eq_nil_iff_forall_not_mem.mpr fun span listed => ?_
      exact MaximalRun.not_of_stops (by simp) ((complete span).mp listed)
    have isNull := returned 1
    rw [none] at isNull
    exact absurd (second.symm.trans isNull) (by decide)

end Nekonix
