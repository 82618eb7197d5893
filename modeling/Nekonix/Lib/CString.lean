import Nekonix.Lib.Types
import Mathlib.Algebra.Group.Int.Defs
import Mathlib.Data.List.TakeWhile

/-!
# The string functions of `lib/string.c`

A string in memory is read up to its terminator.  The loops over a string are
bounded by the size of the address space, which no terminated string exceeds.
Where a function only compares strings, its arguments are their characters.
-/

namespace Nekonix

/-! Characters -/

def charSpace : U8 := 0x20#8
def charTab : U8 := 0x09#8
def charNewline : U8 := 0x0A#8
def charVerticalTab : U8 := 0x0B#8
def charFormFeed : U8 := 0x0C#8
def charReturn : U8 := 0x0D#8
def charPlus : U8 := 0x2B#8
def charMinus : U8 := 0x2D#8
def charDot : U8 := 0x2E#8
def charSlash : U8 := 0x2F#8
def charZero : U8 := 0x30#8
def charFive : U8 := 0x35#8
def charNine : U8 := 0x39#8
def charUpperA : U8 := 0x41#8
def charUpperX : U8 := 0x58#8
def charUpperZ : U8 := 0x5A#8
def charLowerA : U8 := 0x61#8
def charLowerX : U8 := 0x78#8
def charLowerZ : U8 := 0x7A#8

/-- How many characters come before the terminator or the first that `stops`. -/
def spanUntil (memory : Memory) (stops : U8 → Bool) : (fuel : Nat) → (s : U64) → Nat
  | 0, _ => 0
  | fuel + 1, s =>
      if memory s = 0#8 then
        0
      else if stops (memory s) then
        0
      else
        spanUntil memory stops fuel (s + 1#64) + 1

def strlen (memory : Memory) (s : U64) : U64 :=
  BitVec.ofNat 64 (spanUntil memory (fun _ => false) (2 ^ 64) s)

def strspn (memory : Memory) (s : U64) (accept : List U8) : U64 :=
  BitVec.ofNat 64 (spanUntil memory (fun c => !accept.contains c) (2 ^ 64) s)

def strcspn (memory : Memory) (s : U64) (reject : List U8) : U64 :=
  BitVec.ofNat 64 (spanUntil memory (fun c => reject.contains c) (2 ^ 64) s)

/-- `*s1 - *s2` at the first difference. -/
def strcmp : List U8 → List U8 → Int
  | [], [] => 0
  | [], c2 :: _ => 0 - c2.toNat
  | c1 :: _, [] => c1.toNat
  | c1 :: s1, c2 :: s2 => if c1 = c2 then strcmp s1 s2 else c1.toNat - c2.toNat

def strncmp (s1 s2 : List U8) (n : Nat) : Int := strcmp (s1.take n) (s2.take n)

/-- `strtok`: the token, and the memory and `last` after the call. -/
def strtok (memory : Memory) (last str : U64) (delim : List U8) : U64 × Memory × U64 :=
  let str := if str = 0#64 then last else str
  if str = 0#64 then
    (0#64, memory, last)
  else
    let str := str + strspn memory str delim
    if memory str = 0#8 then
      (0#64, memory, last)
    else
      let stop := str + strcspn memory str delim
      if memory stop ≠ 0#8 then
        (str, Function.update memory stop 0#8, stop + 1#64)
      else
        (str, memory, stop)

/-- The loop of `strrchr`, which keeps the `last` occurrence. -/
def lastOccurrence (memory : Memory) (c : U8) : (fuel : Nat) → (s last : U64) → U64
  | 0, _, last => last
  | fuel + 1, s, last =>
      if memory s = 0#8 then
        last
      else
        lastOccurrence memory c fuel (s + 1#64) (if memory s = c then s else last)

/-- `strrchr`: NULL if the character does not occur. -/
def strrchr (memory : Memory) (s : U64) (c : U8) : U64 :=
  lastOccurrence memory c (2 ^ 64) s 0#64

/-- `LONG_MAX` -/
def longMax : Int := 2 ^ 63 - 1

/-- `LONG_MIN` -/
def longMin : Int := -2 ^ 63

/-- The value of a character as a digit. -/
def digitValue (c : U8) : Option Int :=
  if charZero ≤ c ∧ c ≤ charNine then
    some (c.toNat - charZero.toNat)
  else if charLowerA ≤ c ∧ c ≤ charLowerZ then
    some (c.toNat - charLowerA.toNat + 10)
  else if charUpperA ≤ c ∧ c ≤ charUpperZ then
    some (c.toNat - charUpperA.toNat + 10)
  else
    none

/-- `while (*s)` of `strtol`. -/
def strtolDigits (memory : Memory) (base sign : Int) : (fuel : Nat) → (s : U64) → (result : Int) →
    Int
  | 0, _, result => result * sign
  | fuel + 1, s, result =>
      if memory s = 0#8 then
        result * sign
      else
        match digitValue (memory s) with
        | none => result * sign
        | some digit =>
            if digit ≥ base then
              result * sign
            else if result > longMax / base ∨ (result = longMax / base ∧ digit > longMax % base) then
              if sign = 1 then longMax else longMin
            else
              strtolDigits memory base sign fuel (s + 1#64) (result * base + digit)

/-- The base `strtol` reads in, and where its digits begin. -/
def strtolBase (memory : Memory) (s : U64) (base : Int) : Int × U64 :=
  let hexPrefix :=
    memory s = charZero ∧ (memory (s + 1#64) = charLowerX ∨ memory (s + 1#64) = charUpperX)
  if base = 0 then
    if memory s = charZero then
      if memory (s + 1#64) = charLowerX ∨ memory (s + 1#64) = charUpperX then
        (16, s + 2#64)
      else
        (8, s + 1#64)
    else
      (10, s)
  else if base = 16 ∧ hexPrefix then
    (base, s + 2#64)
  else
    (base, s)

/-- `strtol` with `endptr` NULL. -/
def strtol (memory : Memory) (str : U64) (base : Int) : Int :=
  let whitespace := [charSpace, charTab, charNewline, charReturn, charFormFeed, charVerticalTab]
  let s := str + strspn memory str whitespace
  let sign : Int := if memory s = charMinus then -1 else 1
  let s := if memory s = charMinus ∨ memory s = charPlus then s + 1#64 else s
  let (base, s) := strtolBase memory s base
  strtolDigits memory base sign (2 ^ 64) s 0

/-- The characters of the string at `s`. -/
def readString (memory : Memory) : (fuel : Nat) → (s : U64) → List U8
  | 0, _ => []
  | fuel + 1, s =>
      if memory s = 0#8 then [] else memory s :: readString memory fuel (s + 1#64)

abbrev cString (memory : Memory) (s : U64) : List U8 := readString memory (2 ^ 64) s

/-- `strcpy(dest, src)` of a string that lies elsewhere. -/
def strcpy (memory : Memory) (dest : U64) : (src : List U8) → Memory
  | [] => Function.update memory dest 0#8
  | c :: src => strcpy (Function.update memory dest c) (dest + 1#64) src

/-- The string at `s` has these characters. -/
def StringAt (memory : Memory) : (s : U64) → (text : List U8) → Prop
  | s, [] => memory s = 0#8
  | s, c :: text => memory s = c ∧ c ≠ 0#8 ∧ StringAt memory (s + 1#64) text

namespace StringAt

variable {memory other : Memory} {s : U64} {text before after : List U8}

theorem nonzero (string : StringAt memory s text) : ∀ c ∈ text, c ≠ 0#8 := by
  induction text generalizing s with
  | nil => simp
  | cons first text inductionHypothesis =>
      intro c membership
      rcases List.mem_cons.mp membership with rfl | later
      · exact string.2.1
      · exact inductionHypothesis string.2.2 c later

theorem add_succ (s : U64) (offset : Nat) :
    s + 1#64 + BitVec.ofNat 64 offset = s + BitVec.ofNat 64 (offset + 1) :=
  FlatMemory.add_one_add_ofNat s offset

/-- The part of a string behind some characters is a string. -/
theorem drop (string : StringAt memory s (before ++ after)) :
    StringAt memory (s + BitVec.ofNat 64 before.length) after := by
  induction before generalizing s with
  | nil => simpa using string
  | cons first before inductionHypothesis =>
      rw [List.length_cons, ← add_succ]
      exact inductionHypothesis string.2.2

theorem terminator (string : StringAt memory s text) :
    memory (s + BitVec.ofNat 64 text.length) = 0#8 := by
  rw [← List.append_nil text] at string
  exact string.drop

/-- The characters and the terminator of a string have addresses of their own. -/
theorem short (string : StringAt memory s text) : text.length < 2 ^ 64 := by
  by_contra long
  -- as far before the terminator as the address space is long there is a character
  obtain ⟨earlier, isLength⟩ := Nat.exists_eq_add_of_le' (Nat.le_of_not_lt long)
  have ended := string.terminator
  rw [← List.take_append_drop earlier text] at string
  have later := string.drop
  have sameAddress : BitVec.ofNat 64 text.length = BitVec.ofNat 64 earlier := by
    rw [isLength, BitVec.ofNat_add]
    simp
  rw [List.length_take_of_le (isLength ▸ Nat.le_add_right _ _), ← sameAddress] at later
  cases rest : text.drop earlier with
  | nil =>
      have lengths := congrArg List.length rest
      rw [List.length_drop, List.length_nil] at lengths
      omega
  | cons c rest' =>
      rw [rest] at later
      exact later.2.1 (later.1.symm.trans ended)

/-- Memories that agree on a string and its terminator. -/
theorem congr (string : StringAt memory s text)
    (agree : ∀ offset ≤ text.length,
      other (s + BitVec.ofNat 64 offset) = memory (s + BitVec.ofNat 64 offset)) :
    StringAt other s text := by
  induction text generalizing s with
  | nil =>
      have here := agree 0 (Nat.le_refl _)
      rw [BitVec.add_zero] at here
      exact here.trans string
  | cons first text inductionHypothesis =>
      have here := agree 0 (Nat.zero_le _)
      rw [BitVec.add_zero] at here
      refine ⟨here.trans string.1, string.2.1, inductionHypothesis string.2.2 ?_⟩
      intro offset inside
      rw [add_succ]
      exact agree (offset + 1) (Nat.succ_le_succ inside)

/-- Ending a string early. -/
theorem cut (string : StringAt memory s (before ++ after))
    (noWrap : s.toNat + before.length < 2 ^ 64) :
    StringAt (Function.update memory (s + BitVec.ofNat 64 before.length) 0#8) s before := by
  induction before generalizing s with
  | nil => simp [StringAt]
  | cons first before inductionHypothesis =>
      rw [List.length_cons] at noWrap
      have different : s ≠ s + BitVec.ofNat 64 (first :: before).length := by
        rw [List.length_cons]
        bv_omega
      refine ⟨?_, string.2.1, ?_⟩
      · rw [Function.update_of_ne different]
        exact string.1
      · rw [List.length_cons, ← add_succ]
        exact inductionHypothesis string.2.2 (by bv_omega)

theorem readString_eq (string : StringAt memory s text) {fuel : Nat}
    (enough : text.length < fuel) : readString memory fuel s = text := by
  induction text generalizing s fuel with
  | nil =>
      cases fuel with
      | zero => cases enough
      | succ fuel =>
          have ended : memory s = 0#8 := string
          rw [readString, if_pos ended]
  | cons first text inductionHypothesis =>
      cases fuel with
      | zero => cases enough
      | succ fuel =>
          rw [readString, if_neg (string.1.symm ▸ string.2.1), string.1,
            inductionHypothesis string.2.2 (Nat.lt_of_succ_lt_succ enough)]

theorem spanUntil_eq (string : StringAt memory s text) (stops : U8 → Bool) {fuel : Nat}
    (enough : text.length < fuel) :
    spanUntil memory stops fuel s = (text.takeWhile fun c => !stops c).length := by
  induction text generalizing s fuel with
  | nil =>
      cases fuel with
      | zero => cases enough
      | succ fuel =>
          have ended : memory s = 0#8 := string
          rw [spanUntil, if_pos ended]
          rfl
  | cons first text inductionHypothesis =>
      cases fuel with
      | zero => cases enough
      | succ fuel =>
          rw [spanUntil, if_neg (string.1.symm ▸ string.2.1), string.1, List.takeWhile_cons]
          cases stopsHere : stops first with
          | true => rfl
          | false =>
              simp only [Bool.false_eq_true, if_false, Bool.not_false, if_true]
              rw [inductionHypothesis string.2.2 (Nat.lt_of_succ_lt_succ enough),
                List.length_cons]

end StringAt

/-- Where the first token of a string lies. -/
structure FirstToken (delim text gap token rest : List U8) : Prop where
  split : text = gap ++ (token ++ rest)
  skipped : ∀ c ∈ gap, delim.contains c = true
  kept : ∀ c ∈ token, delim.contains c = false
  nonempty : token ≠ []
  stops : ∀ c ∈ rest.head?, delim.contains c = true

variable {memory : Memory} {last str s : U64} {delim text gap token rest : List U8}

theorem takeWhile_append_stop {α : Type} {keeps : α → Bool} {before after : List α}
    (kept : ∀ a ∈ before, keeps a = true) (stops : ∀ a ∈ after.head?, keeps a = false) :
    (before ++ after).takeWhile keeps = before := by
  rw [List.takeWhile_append_of_pos kept]
  cases after with
  | nil => simp
  | cons first after => simp [stops first (by simp)]

/-- A string with a character that is no delimiter has a first token. -/
theorem exists_firstToken {c : U8} (here : c ∈ text) (kept : delim.contains c = false) :
    ∃ gap token rest, FirstToken delim text gap token rest := by
  induction text with
  | nil => cases here
  | cons head text inductionHypothesis =>
      by_cases skipped : delim.contains head = true
      · have later : c ∈ text := by
          rcases List.mem_cons.mp here with rfl | later
          · rw [kept] at skipped
            cases skipped
          · exact later
        obtain ⟨gap, token, rest, first⟩ := inductionHypothesis later
        refine ⟨head :: gap, token, rest, ?_, ?_, first.kept, first.nonempty, first.stops⟩
        · rw [first.split, List.cons_append]
        · intro c membership
          rcases List.mem_cons.mp membership with rfl | inGap
          · exact skipped
          · exact first.skipped c inGap
      · rw [Bool.not_eq_true] at skipped
        refine ⟨[], (head :: text).takeWhile (!delim.contains ·),
          (head :: text).dropWhile (!delim.contains ·), ?_, by simp, ?_, ?_, ?_⟩
        · rw [List.nil_append, List.takeWhile_append_dropWhile]
        · intro c membership
          simpa using List.mem_takeWhile_imp membership
        · simpa using skipped
        · intro c isHead
          have stopped := List.head?_dropWhile_not (!delim.contains ·) (head :: text)
          rw [Option.mem_def.mp isHead] at stopped
          simpa using stopped

theorem FirstToken.strspn_eq (first : FirstToken delim text gap token rest)
    (string : StringAt memory s text) (short : text.length < 2 ^ 64) :
    strspn memory s delim = BitVec.ofNat 64 gap.length := by
  rw [strspn, string.spanUntil_eq _ short, first.split, takeWhile_append_stop]
  · intro c membership
    simpa using first.skipped c membership
  · intro c isHead
    cases token with
    | nil => exact (first.nonempty rfl).elim
    | cons head token =>
        have same : head = c := by simpa using isHead
        simpa [same] using first.kept head (List.mem_cons_self ..)

theorem FirstToken.strcspn_eq (first : FirstToken delim text gap token rest)
    (string : StringAt memory s (token ++ rest)) (short : text.length < 2 ^ 64) :
    strcspn memory s delim = BitVec.ofNat 64 token.length := by
  have shorter : (token ++ rest).length < 2 ^ 64 := by
    have lengths := congrArg List.length first.split
    rw [List.length_append] at lengths
    omega
  rw [strcspn, string.spanUntil_eq _ shorter, takeWhile_append_stop]
  · intro c membership
    rw [first.kept c membership]
    rfl
  · intro c isHead
    rw [first.stops c isHead]
    rfl

/-- What a call that finds a token leaves: the token ends with a terminator, the
rest of the string waits in `last`, and nothing outside the string changes. -/
structure Tokenized (memory : Memory) (s : U64) (text gap token rest : List U8) (str : U64)
    (next : Memory) (last : U64) : Prop where
  begins : str = s + BitVec.ofNat 64 gap.length
  nonnull : str ≠ 0#64
  found : StringAt next str token
  further : StringAt next last rest.tail
  waits : last = s + BitVec.ofNat 64 (text.length - rest.tail.length)
  outside : ∀ address, ¬FlatMemory.InRange s text.length address → next address = memory address

theorem strtok_token (first : FirstToken delim text gap token rest)
    (string : StringAt memory s text) (nonnull : s ≠ 0#64)
    (noWrap : s.toNat + text.length < 2 ^ 64)
    (current : (if str = 0#64 then last else str) = s) :
    Tokenized memory s text gap token rest (strtok memory last str delim).1
      (strtok memory last str delim).2.1 (strtok memory last str delim).2.2 := by
  have short : text.length < 2 ^ 64 := by omega
  have lengths := congrArg List.length first.split
  rw [List.length_append, List.length_append] at lengths
  have atToken : StringAt memory (s + BitVec.ofNat 64 gap.length) (token ++ rest) := by
    rw [first.split] at string
    exact string.drop
  have atRest := atToken.drop
  have notEnd : memory (s + BitVec.ofNat 64 gap.length) ≠ 0#8 := by
    cases token with
    | nil => exact (first.nonempty rfl).elim
    | cons head token => exact atToken.1.symm ▸ atToken.2.1
  have tokenNonnull : s + BitVec.ofNat 64 gap.length ≠ 0#64 := by bv_omega
  simp only [strtok, current, if_neg nonnull, first.strspn_eq string short, if_neg notEnd,
    first.strcspn_eq atToken short]
  cases rest with
  | nil =>
      have ended := atRest
      rw [StringAt] at ended
      rw [if_neg (by simp [ended])]
      rw [List.length_nil] at lengths
      refine ⟨rfl, tokenNonnull, by simpa using atToken, atRest, ?_, fun _ _ => rfl⟩
      have position : text.length - ([] : List U8).tail.length = gap.length + token.length := by
        simpa using lengths
      rw [position, BitVec.add_assoc, ← BitVec.ofNat_add]
  | cons delimiter rest =>
      rw [if_pos (atRest.1.symm ▸ atRest.2.1)]
      rw [List.length_cons] at lengths
      have restString := atRest.2.2
      refine ⟨rfl, tokenNonnull, atToken.cut (by bv_omega), restString.congr ?_, ?_, ?_⟩
      · intro offset inside
        apply Function.update_of_ne
        bv_omega
      · have position : text.length - rest.length = gap.length + token.length + 1 := by omega
        rw [List.tail_cons, position, BitVec.add_assoc, BitVec.add_assoc, ← BitVec.ofNat_add,
          ← BitVec.ofNat_add]
      · intro address outside
        apply Function.update_of_ne
        rintro rfl
        apply outside
        unfold FlatMemory.InRange
        bv_omega

/-- A call on a string without a token. -/
theorem strtok_end (gap : ∀ c ∈ text, delim.contains c = true) (string : StringAt memory s text)
    (short : text.length < 2 ^ 64) (current : (if str = 0#64 then last else str) = s) :
    strtok memory last str delim = (0#64, memory, last) := by
  have skipped : strspn memory s delim = BitVec.ofNat 64 text.length := by
    rw [strspn, string.spanUntil_eq _ short]
    congr 2
    have whole := @takeWhile_append_stop _ (fun c => !!delim.contains c) text []
      (by simpa using gap) (by simp)
    simpa using whole
  simp only [strtok, current, skipped, string.terminator]
  split <;> rfl

/-- The tokens of a string, in order. -/
inductive Tokens (delim : List U8) : (text : List U8) → (tokens : List (List U8)) → Prop where
  | done {text : List U8} : (∀ c ∈ text, delim.contains c = true) → Tokens delim text []
  | token {text gap token rest : List U8} {tokens : List (List U8)} :
      FirstToken delim text gap token rest → Tokens delim rest.tail tokens →
      Tokens delim text (token :: tokens)

theorem FirstToken.tail_shorter (first : FirstToken delim text gap token rest) :
    rest.tail.length < text.length := by
  have lengths := congrArg List.length first.split
  rw [List.length_append, List.length_append] at lengths
  have tokenLength := List.length_pos_iff.mpr first.nonempty
  rw [List.length_tail]
  omega

theorem Tokens.length_le {tokens : List (List U8)} (split : Tokens delim text tokens) :
    tokens.length ≤ text.length := by
  induction split with
  | done => exact Nat.zero_le _
  | token first _ inductionHypothesis =>
      have shorter := first.tail_shorter
      rw [List.length_cons]
      omega

/-- The rest of a string lies where a string can lie. -/
theorem Tokenized.position {next : Memory}
    (tokenized : Tokenized memory s text gap token rest str next last)
    (first : FirstToken delim text gap token rest) (noWrap : s.toNat + text.length < 2 ^ 64) :
    last.toNat = s.toNat + (text.length - rest.tail.length) := by
  have shorter := first.tail_shorter
  rw [tokenized.waits, BitVec.toNat_add, BitVec.toNat_ofNat]
  omega

/-- Equal strings, and only they, compare as equal. -/
theorem strcmp_eq_zero_iff {s1 s2 : List U8} (proper1 : ∀ c ∈ s1, c ≠ 0#8)
    (proper2 : ∀ c ∈ s2, c ≠ 0#8) : strcmp s1 s2 = 0 ↔ s1 = s2 := by
  induction s1 generalizing s2 with
  | nil =>
      cases s2 with
      | nil => simp [strcmp]
      | cons c2 s2 =>
          have nonzero := proper2 c2 (List.mem_cons_self ..)
          simp only [strcmp, reduceCtorEq, iff_false]
          bv_omega
  | cons c1 s1 inductionHypothesis =>
      cases s2 with
      | nil =>
          have nonzero := proper1 c1 (List.mem_cons_self ..)
          simp only [strcmp, reduceCtorEq, iff_false]
          bv_omega
      | cons c2 s2 =>
          have further := inductionHypothesis
            (fun c later => proper1 c (List.mem_cons_of_mem _ later))
            (fun c later => proper2 c (List.mem_cons_of_mem _ later))
          rw [strcmp]
          split_ifs with same
          · rw [further, List.cons.injEq, and_iff_right same]
          · rw [List.cons.injEq]
            constructor
            · intro difference
              exact (same (by bv_omega)).elim
            · exact fun both => (same both.1).elim

theorem strcpy_outside {text : List U8} {address : U64}
    (outside : ∀ offset ≤ text.length, address ≠ s + BitVec.ofNat 64 offset) :
    strcpy memory s text address = memory address := by
  induction text generalizing memory s with
  | nil =>
      have here := outside 0 (Nat.le_refl _)
      rw [BitVec.add_zero] at here
      exact Function.update_of_ne here _ _
  | cons c text inductionHypothesis =>
      have here := outside 0 (Nat.zero_le _)
      rw [BitVec.add_zero] at here
      rw [strcpy, inductionHypothesis, Function.update_of_ne here]
      intro offset inside
      rw [StringAt.add_succ]
      exact outside (offset + 1) (Nat.succ_le_succ inside)

/-- A copied string. -/
theorem stringAt_strcpy {text : List U8} (proper : ∀ c ∈ text, c ≠ 0#8)
    (noWrap : s.toNat + text.length < 2 ^ 64) : StringAt (strcpy memory s text) s text := by
  induction text generalizing memory s with
  | nil => exact Function.update_self ..
  | cons c text inductionHypothesis =>
      rw [List.length_cons] at noWrap
      refine ⟨?_, proper c (List.mem_cons_self ..), ?_⟩
      · rw [strcpy, strcpy_outside, Function.update_self]
        intro offset inside
        bv_omega
      · exact inductionHypothesis (fun c later => proper c (List.mem_cons_of_mem _ later))
          (by bv_omega)

/-! `strrchr` -/

theorem lastOccurrence_absent {c : U8} (string : StringAt memory s text) (absent : c ∉ text)
    {fuel : Nat} : lastOccurrence memory c fuel s last = last := by
  induction text generalizing s fuel with
  | nil =>
      have ended : memory s = 0#8 := string
      cases fuel with
      | zero => rfl
      | succ fuel => rw [lastOccurrence, if_pos ended]
  | cons first text inductionHypothesis =>
      rw [List.mem_cons, not_or] at absent
      cases fuel with
      | zero => rfl
      | succ fuel =>
          rw [lastOccurrence, if_neg (string.1.symm ▸ string.2.1), string.1,
            if_neg (Ne.symm absent.1)]
          exact inductionHypothesis string.2.2 absent.2

/-- The last occurrence is found. -/
theorem lastOccurrence_present {c : U8} {before after : List U8}
    (string : StringAt memory s (before ++ c :: after)) (absent : c ∉ after) {fuel : Nat}
    (enough : before.length < fuel) :
    lastOccurrence memory c fuel s last = s + BitVec.ofNat 64 before.length := by
  induction before generalizing s last fuel with
  | nil =>
      cases fuel with
      | zero => cases enough
      | succ fuel =>
          rw [lastOccurrence, if_neg (string.1.symm ▸ string.2.1), if_pos string.1,
            lastOccurrence_absent string.2.2 absent]
          simp
  | cons first before inductionHypothesis =>
      cases fuel with
      | zero => cases enough
      | succ fuel =>
          rw [lastOccurrence, if_neg (string.1.symm ▸ string.2.1),
            inductionHypothesis string.2.2 (Nat.lt_of_succ_lt_succ enough), StringAt.add_succ,
            List.length_cons]

theorem strrchr_absent {c : U8} (string : StringAt memory s text) (absent : c ∉ text) :
    strrchr memory s c = 0#64 :=
  lastOccurrence_absent string absent

theorem strrchr_present {c : U8} {before after : List U8}
    (string : StringAt memory s (before ++ c :: after)) (absent : c ∉ after)
    (short : before.length < 2 ^ 64) :
    strrchr memory s c = s + BitVec.ofNat 64 before.length :=
  lastOccurrence_present string absent short

end Nekonix
