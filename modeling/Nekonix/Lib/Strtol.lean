import Mathlib.Data.Nat.Digits.Defs
import Mathlib.Tactic.Linarith
import Nekonix.Lib.CString

/-!
# `strtol` of `lib/string.c`

The value of the longest run of digits, clamped to the range of `long`, computed without a
signed overflow.
-/

namespace Nekonix

/-! `strtol` with its signed operations checked -/

/-- A signed operation of type `long`, undefined where it overflows. -/
def checkedLong (value : Int) : Option Int :=
  if longMin ≤ value ∧ value ≤ longMax then some value else none

/-- A signed operation of type `int`. -/
def checkedInt (value : Int) : Option Int :=
  if -2 ^ 31 ≤ value ∧ value ≤ 2 ^ 31 - 1 then some value else none

/-- `*s - '0'`, `*s - 'a' + 10` or `*s - 'A' + 10`. -/
def checkedDigit (c : U8) : Option (Option Int) :=
  if charZero ≤ c ∧ c ≤ charNine then do
    return some (← checkedInt (c.toNat - charZero.toNat))
  else if charLowerA ≤ c ∧ c ≤ charLowerZ then do
    return some (← checkedInt ((← checkedInt (c.toNat - charLowerA.toNat)) + 10))
  else if charUpperA ≤ c ∧ c ≤ charUpperZ then do
    return some (← checkedInt ((← checkedInt (c.toNat - charUpperA.toNat)) + 10))
  else
    some none

/-- `while (*s)` of `strtol`. -/
def strtolDigitsChecked (memory : Memory) (base sign cutoff cutlim : Int) :
    (fuel : Nat) → (s : U64) → (result : Int) → Option Int
  | 0, _, result => checkedLong (result * sign)
  | fuel + 1, s, result =>
      if memory s = 0#8 then
        checkedLong (result * sign)
      else do
        match ← checkedDigit (memory s) with
        | none => checkedLong (result * sign)
        | some digit =>
            if digit ≥ base then
              checkedLong (result * sign)
            else if result > cutoff ∨ (result = cutoff ∧ digit > cutlim) then
              some (if sign = 1 then longMax else longMin)
            else do
              let result ← checkedLong ((← checkedLong (result * base)) + digit)
              strtolDigitsChecked memory base sign cutoff cutlim fuel (s + 1#64) result

/-- `strtol`: no value if a signed operation overflows. -/
def strtolChecked (memory : Memory) (str : U64) (base : Int) : Option Int := do
  let whitespace := [charSpace, charTab, charNewline, charReturn, charFormFeed, charVerticalTab]
  let s := str + strspn memory str whitespace
  let sign : Int := if memory s = charMinus then -1 else 1
  let s := if memory s = charMinus ∨ memory s = charPlus then s + 1#64 else s
  let (base, s) := strtolBase memory s base
  let cutoff ← checkedLong (longMax / base)
  let cutlim ← checkedInt (longMax % base)
  strtolDigitsChecked memory base sign cutoff cutlim (2 ^ 64) s 0

/-! The value of a text -/

/-- The sign, and what is behind it. -/
def splitSign : List U8 → Int × List U8
  | [] => (1, [])
  | c :: text =>
      if c = charMinus then (-1, text) else if c = charPlus then (1, text) else (1, c :: text)

/-- The text begins with `0x` or `0X`. -/
def hasHexPrefix : List U8 → Bool
  | zero :: x :: _ => zero = charZero ∧ (x = charLowerX ∨ x = charUpperX)
  | _ => false

/-- The base the digits are read in. -/
def digitBase (base : Int) (text : List U8) : Int :=
  if base ≠ 0 then base
  else if hasHexPrefix text then 16
  else if text.head? = some charZero then 8
  else 10

def dropHexPrefix (base : Int) (text : List U8) : List U8 :=
  if (base = 0 ∨ base = 16) ∧ hasHexPrefix text then text.drop 2 else text

def validDigit (base : Int) (c : U8) : Bool := (digitValue c).any (· < base)

/-- The longest run of valid digits as a number. -/
def runValue (base : Int) (text : List U8) : Nat :=
  Nat.ofDigits base.toNat
    ((text.takeWhile (validDigit base)).map fun c => ((digitValue c).getD 0).toNat).reverse

def clampLong (value : Int) : Int := max longMin (min longMax value)

/-- The value of the text, with its sign, clamped. -/
def textValue (text : List U8) (base : Int) : Int :=
  let whitespace := [charSpace, charTab, charNewline, charReturn, charFormFeed, charVerticalTab]
  let (sign, text) := splitSign (text.dropWhile whitespace.contains)
  clampLong (sign * runValue (digitBase base text) (dropHexPrefix base text))

variable {memory : Memory} {base sign value result : Int} {s str : U64} {text : List U8} {c : U8}

theorem checkedLong_some (atLeast : longMin ≤ value) (atMost : value ≤ longMax) :
    checkedLong value = some value := if_pos ⟨atLeast, atMost⟩

theorem eq_of_checkedLong (computed : checkedLong value = some result) : result = value := by
  unfold checkedLong at computed
  split_ifs at computed
  exact (Option.some.inj computed).symm

/-- No digit overflows. -/
theorem checkedDigit_eq (c : U8) : checkedDigit c = some (digitValue c) := by
  have small := c.isLt
  have checked : ∀ value : Int, -2 ^ 31 ≤ value → value ≤ 2 ^ 31 - 1 →
      checkedInt value = some value := fun value atLeast atMost => if_pos ⟨atLeast, atMost⟩
  have isZero : charZero.toNat = 48 := rfl
  have isLowerA : charLowerA.toNat = 97 := rfl
  have isUpperA : charUpperA.toNat = 65 := rfl
  unfold checkedDigit digitValue
  split_ifs
  · rw [checked _ (by omega) (by omega)]
    rfl
  · rw [checked _ (by omega) (by omega)]
    dsimp only [Option.bind_eq_bind, Option.bind_some]
    rw [checked _ (by omega) (by omega)]
    rfl
  · rw [checked _ (by omega) (by omega)]
    dsimp only [Option.bind_eq_bind, Option.bind_some]
    rw [checked _ (by omega) (by omega)]
    rfl
  · rfl

theorem digitValue_bounds {digit : Int} (isDigit : digitValue c = some digit) :
    0 ≤ digit ∧ digit ≤ 35 := by
  unfold digitValue charZero charNine charLowerA charLowerZ charUpperA charUpperZ at isDigit
  split_ifs at isDigit with decimal lower upper
  · obtain ⟨atLeast, atMost⟩ := decimal
    cases isDigit
    rw [BitVec.le_def] at atLeast atMost
    simp only [BitVec.toNat_ofNat] at *
    omega
  · obtain ⟨atLeast, atMost⟩ := lower
    cases isDigit
    rw [BitVec.le_def] at atLeast atMost
    simp only [BitVec.toNat_ofNat] at *
    omega
  · obtain ⟨atLeast, atMost⟩ := upper
    cases isDigit
    rw [BitVec.le_def] at atLeast atMost
    simp only [BitVec.toNat_ofNat] at *
    omega

/-! The loop over the digits -/

/-- The value behind some further digits. -/
def accumulate (base value : Int) (run : List U8) : Int :=
  run.foldl (fun value c => value * base + (digitValue c).getD 0) value

theorem accumulate_cons {digit : Int} (isDigit : digitValue c = some digit) :
    accumulate base value (c :: text) = accumulate base (value * base + digit) text := by
  rw [accumulate, List.foldl_cons, isDigit]
  rfl

/-- A value only grows. -/
theorem le_accumulate (atLeast : 2 ≤ base) (nonneg : 0 ≤ value) :
    value ≤ accumulate base value text := by
  induction text generalizing value with
  | nil => exact le_refl value
  | cons c text inductionHypothesis =>
      have digitNonneg : 0 ≤ (digitValue c).getD 0 := by
        cases isDigit : digitValue c with
        | none => exact le_refl 0
        | some digit => exact (digitValue_bounds isDigit).1
      have larger : value ≤ value * base + (digitValue c).getD 0 := by nlinarith
      exact larger.trans (inductionHypothesis (nonneg.trans larger))

theorem accumulate_zero (nonneg : 0 ≤ base) :
    accumulate base 0 (text.takeWhile (validDigit base)) = runValue base text := by
  have digits : ∀ (run : List U8) (value : Nat), accumulate base value run =
      ((run.map fun c => ((digitValue c).getD 0).toNat).foldl
        (fun value digit => digit + base.toNat * value) value : Nat) := by
    intro run
    induction run with
    | nil => exact fun value => rfl
    | cons c run inductionHypothesis =>
        intro value
        have isNat : (((digitValue c).getD 0).toNat : Int) = (digitValue c).getD 0 := by
          cases isDigit : digitValue c with
          | none => rfl
          | some digit => exact Int.toNat_of_nonneg (digitValue_bounds isDigit).1
        have next : (value : Int) * base + (digitValue c).getD 0 =
            ((((digitValue c).getD 0).toNat + base.toNat * value : Nat) : Int) := by
          rw [Nat.cast_add, Nat.cast_mul, isNat, Int.toNat_of_nonneg nonneg]
          ring
        rw [List.map_cons, List.foldl_cons, ← inductionHypothesis, ← next]
        rfl
  rw [runValue, Nat.ofDigits_eq_foldr, List.foldr_reverse]
  exact digits _ 0

/-- The test of the loop finds the digits that would lead past `LONG_MAX`. -/
theorem cutoff_iff {digit : Int} (positive : 0 < base) (nonneg : 0 ≤ digit) (valid : digit < base) :
    (result > longMax / base ∨ (result = longMax / base ∧ digit > longMax % base)) ↔
      result * base + digit > longMax := by
  have split := Int.mul_ediv_add_emod longMax base
  have remainder := Int.emod_lt_of_pos longMax positive
  have remainderNonneg := Int.emod_nonneg longMax positive.ne'
  generalize longMax / base = cutoff at *
  generalize longMax % base = cutlim at *
  rw [← split]
  constructor
  · rintro (larger | ⟨rfl, larger⟩)
    · nlinarith
    · linarith [mul_comm base result]
  · intro larger
    by_contra within
    rw [not_or, not_and] at within
    obtain ⟨notLarger, notBoth⟩ := within
    rcases lt_or_eq_of_le (not_lt.mp notLarger) with less | same
    · nlinarith
    · have notOver := notBoth same
      rw [same] at larger
      linarith [mul_comm base cutoff]

/-- The number of a run as `strtol` returns it. -/
theorem checkedLong_signed (isSign : sign = 1 ∨ sign = -1) (nonneg : 0 ≤ result)
    (atMost : result ≤ longMax) :
    checkedLong (result * sign) = some (clampLong (sign * result)) := by
  unfold longMax at atMost
  unfold checkedLong clampLong longMax longMin
  rcases isSign with rfl | rfl
  · rw [if_pos (by omega)]
    congr 1
    omega
  · rw [if_pos (by omega)]
    congr 1
    omega

/-- The number of a run past `LONG_MAX`. -/
theorem clampLong_over (isSign : sign = 1 ∨ sign = -1) (beyond : value > longMax) :
    clampLong (sign * value) = if sign = 1 then longMax else longMin := by
  unfold longMax at beyond
  unfold clampLong longMax longMin
  rcases isSign with rfl | rfl
  · rw [if_pos rfl]
    omega
  · rw [if_neg (by decide)]
    omega

/-- The loop from any result on. -/
theorem strtolDigitsChecked_eq (atLeast : 2 ≤ base) (isSign : sign = 1 ∨ sign = -1)
    (string : StringAt memory s text) {fuel : Nat} (enough : text.length < fuel)
    (nonneg : 0 ≤ result) (atMost : result ≤ longMax) :
    strtolDigitsChecked memory base sign (longMax / base) (longMax % base) fuel s result =
      some (clampLong (sign * accumulate base result (text.takeWhile (validDigit base)))) := by
  have positive : 0 < base := by omega
  induction text generalizing s fuel result with
  | nil =>
      cases fuel with
      | zero => cases enough
      | succ fuel =>
          have ended : memory s = 0#8 := string
          rw [strtolDigitsChecked, if_pos ended]
          exact checkedLong_signed isSign nonneg atMost
  | cons c text inductionHypothesis =>
      obtain ⟨here, nonzero, further⟩ := string
      cases fuel with
      | zero => cases enough
      | succ fuel =>
          rw [strtolDigitsChecked, here, if_neg nonzero, checkedDigit_eq, Option.bind_eq_bind,
            Option.bind_some, List.takeWhile_cons]
          cases isDigit : digitValue c with
          | none =>
              have invalid : validDigit base c = false := by simp [validDigit, isDigit]
              rw [invalid]
              exact checkedLong_signed isSign nonneg atMost
          | some digit =>
              dsimp only
              obtain ⟨digitNonneg, -⟩ := digitValue_bounds isDigit
              by_cases large : digit ≥ base
              · have invalid : validDigit base c = false := by simp [validDigit, isDigit, large]
                rw [if_pos large, invalid]
                exact checkedLong_signed isSign nonneg atMost
              · have valid : validDigit base c = true := by
                  simpa [validDigit, isDigit] using large
                have nextNonneg : 0 ≤ result * base + digit := by positivity
                rw [if_neg large, valid, if_pos rfl, accumulate_cons isDigit]
                by_cases beyond : result * base + digit > longMax
                · rw [if_pos ((cutoff_iff positive digitNonneg (not_le.mp large)).mpr beyond)]
                  have grown := @le_accumulate base _ (text.takeWhile (validDigit base)) atLeast
                    nextNonneg
                  rw [clampLong_over isSign (lt_of_lt_of_le beyond grown)]
                · have within := not_lt.mp beyond
                  have product : 0 ≤ result * base := by positivity
                  have bottom : longMin ≤ 0 := by decide
                  rw [if_neg (fun cut => beyond
                      ((cutoff_iff positive digitNonneg (not_le.mp large)).mp cut)),
                    checkedLong_some (by omega) (by omega), Option.bind_eq_bind, Option.bind_some,
                    checkedLong_some (by omega) within, Option.bind_some]
                  exact inductionHypothesis further (Nat.lt_of_succ_lt_succ enough) nextNonneg
                    within

/-- Where nothing overflows, the loop computes what it does without the checks. -/
theorem strtolDigits_of_checked {fuel : Nat}
    (computed : strtolDigitsChecked memory base sign (longMax / base) (longMax % base) fuel s
      result = some value) : strtolDigits memory base sign fuel s result = value := by
  induction fuel generalizing s result with
  | zero => exact (eq_of_checkedLong computed).symm
  | succ fuel inductionHypothesis =>
      rw [strtolDigitsChecked, checkedDigit_eq, Option.bind_eq_bind, Option.bind_some] at computed
      rw [strtolDigits]
      by_cases ended : memory s = 0#8
      · rw [if_pos ended] at computed ⊢
        exact (eq_of_checkedLong computed).symm
      · rw [if_neg ended] at computed ⊢
        cases isDigit : digitValue (memory s) with
        | none =>
            rw [isDigit] at computed
            exact (eq_of_checkedLong computed).symm
        | some digit =>
            rw [isDigit] at computed
            dsimp only at computed ⊢
            split_ifs at computed ⊢ with large exceeds
            · exact (eq_of_checkedLong computed).symm
            · exact Option.some.inj computed
            · exact Option.some.inj computed
            · obtain ⟨product, isProduct, further⟩ := Option.bind_eq_some_iff.mp computed
              obtain ⟨next, isNext, last⟩ := Option.bind_eq_some_iff.mp further
              rw [eq_of_checkedLong isProduct] at isNext
              rw [eq_of_checkedLong isNext] at last
              exact inductionHypothesis last

/-! What is in front of the digits -/

theorem StringAt.skip_accepted {accept : List U8} (string : StringAt memory str text) :
    StringAt memory (str + strspn memory str accept) (text.dropWhile accept.contains) := by
  have skipped : strspn memory str accept =
      BitVec.ofNat 64 (text.takeWhile accept.contains).length := by
    rw [strspn, string.spanUntil_eq _ string.short]
    simp only [Bool.not_not]
  rw [skipped]
  rw [← List.takeWhile_append_dropWhile (p := accept.contains) (l := text)] at string
  exact string.drop

/-- `strtol` reads the sign that the text has. -/
theorem splitSign_eq (string : StringAt memory s text) :
    (if memory s = charMinus then -1 else 1) = (splitSign text).1 ∧
    StringAt memory (if memory s = charMinus ∨ memory s = charPlus then s + 1#64 else s)
      (splitSign text).2 := by
  cases text with
  | nil =>
      have ended : memory s = 0#8 := string
      rw [ended]
      exact ⟨rfl, string⟩
  | cons c text =>
      have isSplit : splitSign (c :: text) = if c = charMinus then (-1, text) else
          if c = charPlus then (1, text) else (1, c :: text) := rfl
      rw [string.1, isSplit]
      by_cases minus : c = charMinus
      · rw [if_pos minus, if_pos minus, if_pos (.inl minus)]
        exact ⟨rfl, string.2.2⟩
      · rw [if_neg minus, if_neg minus]
        by_cases plus : c = charPlus
        · rw [if_pos plus, if_pos (.inr plus)]
          exact ⟨rfl, string.2.2⟩
        · rw [if_neg plus, if_neg (not_or.mpr ⟨minus, plus⟩)]
          exact ⟨rfl, string⟩

theorem isSign_splitSign (text : List U8) :
    (splitSign text).1 = 1 ∨ (splitSign text).1 = -1 := by
  unfold splitSign
  split
  · exact .inl rfl
  · split_ifs
    · exact .inr rfl
    · exact .inl rfl
    · exact .inl rfl

/-- The prefix of a hexadecimal number in memory. -/
theorem hasHexPrefix_iff (string : StringAt memory s text) : hasHexPrefix text = true ↔
    memory s = charZero ∧ (memory (s + 1#64) = charLowerX ∨ memory (s + 1#64) = charUpperX) := by
  cases text with
  | nil =>
      have ended : memory s = 0#8 := string
      simp [hasHexPrefix, ended, charZero]
  | cons zero text =>
      cases text with
      | nil =>
          have ended : memory (s + 1#64) = 0#8 := string.2.2
          simp [hasHexPrefix, ended, charLowerX, charUpperX]
      | cons x text =>
          rw [string.1, string.2.2.1, hasHexPrefix, decide_eq_true_iff]

theorem head_eq_zero_iff (string : StringAt memory s text) :
    text.head? = some charZero ↔ memory s = charZero := by
  cases text with
  | nil =>
      have ended : memory s = 0#8 := string
      simp [ended, charZero]
  | cons c text =>
      rw [string.1, List.head?_cons, Option.some_inj]

/-- A leading 0 counts for nothing. -/
theorem runValue_zero (text : List U8) (positive : 0 < base) :
    runValue base (charZero :: text) = runValue base text := by
  have isDigit : digitValue charZero = some 0 := by decide
  have valid : validDigit base charZero = true := by
    simpa [validDigit, isDigit] using positive
  rw [runValue, runValue, List.takeWhile_cons, valid, if_pos rfl, List.map_cons, isDigit]
  exact Nat.ofDigits_reverse_zero_cons _

/-- The base that `strtol` chooses, and the digits it begins to read. -/
theorem strtolBase_eq (string : StringAt memory s text) (base : Int) :
    ∃ digits, (strtolBase memory s base).1 = digitBase base text ∧
      StringAt memory (strtolBase memory s base).2 digits ∧
      runValue (digitBase base text) digits =
        runValue (digitBase base text) (dropHexPrefix base text) := by
  have isHex := hasHexPrefix_iff string
  have isZero := head_eq_zero_iff string
  unfold strtolBase digitBase dropHexPrefix
  dsimp only
  by_cases isPrefix : hasHexPrefix text = true
  · obtain ⟨leading, x⟩ := isHex.mp isPrefix
    have afterTwo : StringAt memory (s + 2#64) (text.drop 2) := by
      cases text with
      | nil => cases isPrefix
      | cons zero text =>
          cases text with
          | nil => cases isPrefix
          | cons letter text =>
              have further := string.2.2.2.2
              rwa [BitVec.add_assoc] at further
    by_cases automatic : base = 0
    · rw [if_pos automatic, if_pos leading, if_pos x, if_neg (not_not.mpr automatic),
        if_pos isPrefix, if_pos ⟨.inl automatic, isPrefix⟩]
      exact ⟨text.drop 2, rfl, afterTwo, rfl⟩
    · rw [if_neg automatic, if_pos automatic]
      by_cases hexadecimal : base = 16
      · rw [if_pos ⟨hexadecimal, leading, x⟩, if_pos ⟨.inr hexadecimal, isPrefix⟩]
        exact ⟨text.drop 2, rfl, afterTwo, rfl⟩
      · rw [if_neg (fun both => hexadecimal both.1),
          if_neg (fun both => both.1.elim automatic hexadecimal)]
        exact ⟨text, rfl, string, rfl⟩
  · have noHex := fun both => isPrefix (isHex.mpr both)
    have notDropped : ¬((base = 0 ∨ base = 16) ∧ hasHexPrefix text = true) :=
      fun both => isPrefix both.2
    rw [if_neg isPrefix, if_neg notDropped]
    by_cases automatic : base = 0
    · rw [if_pos automatic, if_neg (not_not.mpr automatic)]
      by_cases leading : memory s = charZero
      · obtain ⟨rest, rfl⟩ := List.head?_eq_some_iff.mp (isZero.mpr leading)
        rw [if_pos leading, if_neg (fun x => noHex ⟨leading, x⟩), if_pos (isZero.mpr leading)]
        exact ⟨rest, rfl, string.2.2, (runValue_zero rest (by decide)).symm⟩
      · rw [if_neg leading, if_neg (fun isHead => leading (isZero.mp isHead))]
        exact ⟨text, rfl, string, rfl⟩
    · rw [if_neg automatic, if_pos automatic, if_neg (fun both => noHex both.2)]
      exact ⟨text, rfl, string, rfl⟩

theorem digitBase_bounds (text : List U8) (domain : base = 0 ∨ (2 ≤ base ∧ base ≤ 36)) :
    2 ≤ digitBase base text ∧ digitBase base text ≤ 36 := by
  unfold digitBase
  split_ifs <;> omega

/-- `strtol` returns the value of the text, clamped, and no signed operation overflows. -/
theorem strtol_clamps (memory : Memory) (str : U64) (base : Int)
    (string : StringAt memory str text) (domain : base = 0 ∨ (2 ≤ base ∧ base ≤ 36)) :
    strtolChecked memory str base = some (textValue text base) ∧
      strtol memory str base = textValue text base := by
  have skipped := @StringAt.skip_accepted memory str text
    [charSpace, charTab, charNewline, charReturn, charFormFeed, charVerticalTab] string
  unfold strtolChecked strtol textValue
  dsimp only
  generalize str + strspn memory str
    [charSpace, charTab, charNewline, charReturn, charFormFeed, charVerticalTab] = s at *
  generalize List.dropWhile
    [charSpace, charTab, charNewline, charReturn, charFormFeed, charVerticalTab].contains text =
      visible at *
  obtain ⟨isSign, unsigned⟩ := splitSign_eq skipped
  rw [isSign]
  generalize (if memory s = charMinus ∨ memory s = charPlus then s + 1#64 else s) = s' at *
  have sign := isSign_splitSign visible
  generalize splitSign visible = signed at *
  obtain ⟨digits, isBase, atDigits, sameValue⟩ := strtolBase_eq unsigned base
  obtain ⟨atLeast, atMost⟩ := digitBase_bounds signed.2 domain
  have bottom : longMin ≤ 0 := by decide
  have cutoffSmall : longMax / digitBase base signed.2 ≤ longMax :=
    Int.ediv_le_self _ (by decide)
  have cutoffNonneg : 0 ≤ longMax / digitBase base signed.2 :=
    Int.ediv_nonneg (by decide) (by omega)
  have cutlimSmall := Int.emod_lt_of_pos longMax (by omega : 0 < digitBase base signed.2)
  have cutlimNonneg := Int.emod_nonneg longMax (by omega : digitBase base signed.2 ≠ 0)
  have cutlim : checkedInt (longMax % digitBase base signed.2) =
      some (longMax % digitBase base signed.2) := if_pos ⟨by omega, by omega⟩
  have computed := @strtolDigitsChecked_eq memory _ signed.1 0 _ digits atLeast sign atDigits
    (2 ^ 64) atDigits.short (le_refl 0) (by decide)
  rw [accumulate_zero (by omega), sameValue] at computed
  rw [isBase, checkedLong_some (by omega) cutoffSmall, cutlim]
  exact ⟨computed, strtolDigits_of_checked computed⟩

/-- The string ` -0x1F` at address 0x100. -/
def hexText : Memory := fun address =>
  [charSpace, charMinus, charZero, charLowerX, 0x31#8, 0x46#8].getD (address - 0x100#64).toNat 0#8

/-- A hexadecimal number is read in the base it announces. -/
theorem strtol_clamps_hex : strtol hexText 0x100#64 0 = -31 := by
  have string : StringAt hexText 0x100#64
      [charSpace, charMinus, charZero, charLowerX, 0x31#8, 0x46#8] :=
    ⟨rfl, by decide, rfl, by decide, rfl, by decide, rfl, by decide, rfl, by decide, rfl,
      by decide, rfl⟩
  have value : textValue [charSpace, charMinus, charZero, charLowerX, 0x31#8, 0x46#8] 0 = -31 := by
    decide +kernel
  exact (strtol_clamps hexText 0x100#64 0 string (.inl rfl)).2.trans value

end Nekonix
