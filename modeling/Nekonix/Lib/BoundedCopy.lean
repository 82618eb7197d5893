import Nekonix.Lib.CString
import Nekonix.Library.StoreLog

/-!
# The bounded string copies of `lib/string.c`

`strncpy`, `strncat` and `strndup` with every byte they store.
-/

namespace Nekonix

open FlatMemory

/-- `while (n && (*d++ = *src++)) n--;`: what is stored, `d` and `n` behind the loop. -/
def strncpyCopy (log : StoreLog) (d src : U64) : (n : Nat) → StoreLog × U64 × Nat
  | 0 => (log, d, 0)
  | n + 1 =>
      let c := log.memory src
      if c = 0#8 then
        (log.store d c, d + 1#64, n + 1)
      else
        strncpyCopy (log.store d c) (d + 1#64) (src + 1#64) n

/-- `while (n--) *d++ = '\0';` -/
def strncpyPad (log : StoreLog) (d : U64) : (n : Nat) → StoreLog
  | 0 => log
  | n + 1 => strncpyPad (log.store d 0#8) (d + 1#64) n

def strncpy (log : StoreLog) (dest src n : U64) : StoreLog :=
  let (log, d, n) := strncpyCopy log dest src n.toNat
  strncpyPad log d n

/-- `while (n-- && (*d++ = *src++));`: what is stored, and `d` behind the loop. -/
def strncatCopy (log : StoreLog) (d src : U64) : (n : Nat) → StoreLog × U64
  | 0 => (log, d)
  | n + 1 =>
      let c := log.memory src
      if c = 0#8 then
        (log.store d c, d + 1#64)
      else
        strncatCopy (log.store d c) (d + 1#64) (src + 1#64) n

def strncat (log : StoreLog) (dest src n : U64) : StoreLog :=
  let (log, d) := strncatCopy log (dest + strlen log.memory dest) src n.toNat
  log.store d 0#8

/-- `strndup`, where `copy` is what `kmalloc(len + 1)` returns. -/
def strndup (log : StoreLog) (copy s n : U64) : StoreLog :=
  let len := strlen log.memory s
  let len := if len > n then n else len
  if copy = 0#64 then
    log
  else
    (strncpy log copy s len).store (copy + len) 0#8

variable {log : StoreLog} {d dest src copy n : U64} {text old : List U8}

theorem StringAt.strlen_eq {memory : Memory} (string : StringAt memory src text) :
    strlen memory src = BitVec.ofNat 64 text.length := by
  rw [strlen, string.spanUntil_eq _ string.short, List.takeWhile_eq_self_iff.mpr]
  simp

/-- No character of the string is overwritten before a copy to `dest` reads it. -/
def Unread (dest src : U64) (text : List U8) : Prop :=
  ∀ offset ≤ text.length, ∀ earlier < offset,
    src + BitVec.ofNat 64 offset ≠ dest + BitVec.ofNat 64 earlier

/-- A string whose range is not stored to is never overwritten. -/
theorem unread_of_apart
    (apart : ∀ offset ≤ text.length, ∀ other ≤ text.length,
      src + BitVec.ofNat 64 offset ≠ dest + BitVec.ofNat 64 other) : Unread dest src text :=
  fun offset below earlier before => apart offset below earlier (by omega)

section

variable {c : U8} (string : StringAt log.memory src (c :: text)) (unread : Unread d src (c :: text))

include unread in
theorem Unread.tail : Unread (d + 1#64) (src + 1#64) text := by
  intro offset below earlier before
  rw [StringAt.add_succ, StringAt.add_succ]
  exact unread (offset + 1) (Nat.succ_le_succ below) (earlier + 1) (Nat.succ_lt_succ before)

include string unread in
/-- The rest of the string after its first character was copied. -/
theorem StringAt.after_store : StringAt (log.store d c).memory (src + 1#64) text := by
  refine string.2.2.congr fun offset below => ?_
  refine Function.update_of_ne ?_ _ _
  have apart := unread (offset + 1) (Nat.succ_le_succ below) 0 (Nat.succ_pos offset)
  rwa [← StringAt.add_succ, BitVec.add_zero] at apart

end

/-- The first loop of `strncpy` where `n` characters are copied. -/
theorem strncpyCopy_full {n : Nat} (string : StringAt log.memory src text)
    (unread : Unread d src text) (full : n ≤ text.length) :
    strncpyCopy log d src n = (log.storeAll d (text.take n), d + BitVec.ofNat 64 n, 0) := by
  induction n generalizing log d src text with
  | zero => simp [strncpyCopy]
  | succ n inductionHypothesis =>
      cases text with
      | nil => cases full
      | cons c text =>
          have further := inductionHypothesis (string.after_store unread) unread.tail
            (Nat.le_of_succ_le_succ full)
          rw [strncpyCopy, string.1, if_neg string.2.1, further, List.take_succ_cons,
            StoreLog.storeAll_cons, StringAt.add_succ]

/-- The first loop of `strncpy` where it copies the terminator. -/
theorem strncpyCopy_ended {n : Nat} (string : StringAt log.memory src text)
    (unread : Unread d src text) (ended : text.length < n) :
    strncpyCopy log d src n = (log.storeAll d (text ++ [0#8]),
      d + BitVec.ofNat 64 (text.length + 1), n - text.length) := by
  induction n generalizing log d src text with
  | zero => cases ended
  | succ n inductionHypothesis =>
      cases text with
      | nil =>
          have terminator : log.memory src = 0#8 := string
          rw [strncpyCopy, terminator, if_pos rfl]
          rfl
      | cons c text =>
          have further := inductionHypothesis (string.after_store unread) unread.tail
            (Nat.lt_of_succ_lt_succ ended)
          rw [strncpyCopy, string.1, if_neg string.2.1, further, List.cons_append,
            StoreLog.storeAll_cons, StringAt.add_succ, List.length_cons, Nat.succ_sub_succ]

theorem strncpyPad_eq (log : StoreLog) (d : U64) (n : Nat) :
    strncpyPad log d n = log.storeAll d (List.replicate n 0#8) := by
  induction n generalizing log d with
  | zero => rfl
  | succ n inductionHypothesis => rw [strncpyPad, inductionHypothesis]; rfl

/-- The loop of `strncat` stores what the first loop of `strncpy` does. -/
theorem strncatCopy_eq (log : StoreLog) (d src : U64) (n : Nat) :
    strncatCopy log d src n = ((strncpyCopy log d src n).1, (strncpyCopy log d src n).2.1) := by
  induction n generalizing log d src with
  | zero => rfl
  | succ n inductionHypothesis =>
      by_cases ended : log.memory src = 0#8
      · simp only [strncatCopy, strncpyCopy, if_pos ended]
      · simp only [strncatCopy, strncpyCopy, if_neg ended, inductionHypothesis]

/-! What the functions store -/

/-- `strncpy` of a string with `n` characters or more. -/
theorem strncpy_full (string : StringAt log.memory src text) (unread : Unread dest src text)
    (full : n.toNat ≤ text.length) :
    strncpy log dest src n = log.storeAll dest (text.take n.toNat) := by
  simp only [strncpy, strncpyCopy_full string unread full, strncpyPad_eq]
  rfl

/-- `strncpy` of a shorter string: the terminator does not count as one of the `n` characters. -/
theorem strncpy_ended (string : StringAt log.memory src text) (unread : Unread dest src text)
    (ended : text.length < n.toNat) :
    strncpy log dest src n =
      log.storeAll dest (text ++ [0#8] ++ List.replicate (n.toNat - text.length) 0#8) := by
  have appended := @StoreLog.storeAll_append log dest (text ++ [0#8])
    (List.replicate (n.toNat - text.length) 0#8)
  rw [List.length_append, List.length_singleton] at appended
  simp only [strncpy, strncpyCopy_ended string unread ended, strncpyPad_eq, appended]

/-- `strncat` of a string with `n` characters or more. -/
theorem strncat_full (atDest : StringAt log.memory dest old)
    (string : StringAt log.memory src text)
    (unread : Unread (dest + BitVec.ofNat 64 old.length) src text)
    (full : n.toNat ≤ text.length) :
    strncat log dest src n =
      log.storeAll (dest + BitVec.ofNat 64 old.length) (text.take n.toNat ++ [0#8]) := by
  simp only [strncat, atDest.strlen_eq, strncatCopy_eq, strncpyCopy_full string unread full]
  rw [StoreLog.storeAll_append, List.length_take_of_le full]
  rfl

/-- `strncat` of a shorter string: the terminator is stored twice. -/
theorem strncat_ended (atDest : StringAt log.memory dest old)
    (string : StringAt log.memory src text)
    (unread : Unread (dest + BitVec.ofNat 64 old.length) src text)
    (ended : text.length < n.toNat) :
    strncat log dest src n =
      log.storeAll (dest + BitVec.ofNat 64 old.length) (text ++ [0#8] ++ [0#8]) := by
  have appended := @StoreLog.storeAll_append log (dest + BitVec.ofNat 64 old.length)
    (text ++ [0#8]) [0#8]
  rw [List.length_append, List.length_singleton] at appended
  simp only [strncat, atDest.strlen_eq, strncatCopy_eq, strncpyCopy_ended string unread ended,
    appended]
  rfl

/-! The bounds -/

/-- `strncpy` stores to `dest[0 .. n)` and nowhere else: the characters of the string as far
as they go, and zeros behind them. -/
structure StrncpyBounded (memory : Memory) (dest n : U64) (text : List U8) (next : StoreLog) :
    Prop where
  stores : ∀ address, address ∈ next.addresses ↔ InRange dest n.toNat address
  copied : ∀ offset (below : offset < text.length), offset < n.toNat →
    next.memory (dest + BitVec.ofNat 64 offset) = text[offset]
  padded : ∀ offset, text.length ≤ offset → offset < n.toNat →
    next.memory (dest + BitVec.ofNat 64 offset) = 0#8
  others : ∀ address, ¬InRange dest n.toNat address → next.memory address = memory address

/-- `strncat` stores to the characters behind the old ones and one terminator, and nowhere
else. -/
structure StrncatBounded (memory : Memory) (dest n : U64) (old text : List U8)
    (next : StoreLog) : Prop where
  stores : ∀ address, address ∈ next.addresses ↔
    InRange (dest + BitVec.ofNat 64 old.length) (min n.toNat text.length + 1) address
  appended : ∀ offset (below : offset < text.length), offset < n.toNat →
    next.memory (dest + BitVec.ofNat 64 old.length + BitVec.ofNat 64 offset) = text[offset]
  terminated : next.memory (dest + BitVec.ofNat 64 old.length +
    BitVec.ofNat 64 (min n.toNat text.length)) = 0#8
  others : ∀ address,
    ¬InRange (dest + BitVec.ofNat 64 old.length) (min n.toNat text.length + 1) address →
      next.memory address = memory address

/-- One store too many lies outside. -/
theorem not_inRange_end (base : U64) {count : Nat} (small : count < 2 ^ 64) :
    ¬InRange base count (base + BitVec.ofNat 64 count) := by
  rw [InRange, offset_toNat base small]
  exact Nat.lt_irrefl count

variable {memory : Memory}

theorem mem_addresses_start {bytes : List U8} {address : U64} (short : bytes.length ≤ 2 ^ 64) :
    address ∈ ((StoreLog.start memory).storeAll d bytes).addresses ↔
      InRange d bytes.length address := by
  rw [StoreLog.mem_addresses_storeAll short]
  simp [StoreLog.start]

theorem strncpy_bounded_iff (string : StringAt memory src text) (unread : Unread dest src text) :
    StrncpyBounded memory dest n text (strncpy (.start memory) dest src n) ↔
      n.toNat ≤ text.length := by
  have small := n.isLt
  constructor
  · intro bounded
    by_contra longer
    have ended := Nat.lt_of_not_le longer
    have count : (text ++ [0#8] ++ List.replicate (n.toNat - text.length) 0#8).length =
        n.toNat + 1 := by
      simp only [List.length_append, List.length_singleton, List.length_replicate]
      omega
    have stored : dest + BitVec.ofNat 64 n.toNat ∈
        (strncpy (.start memory) dest src n).addresses := by
      rw [@strncpy_ended (.start memory) _ _ _ _ string unread ended,
        mem_addresses_start (by omega), count]
      exact inRange_offset dest small (Nat.lt_succ_self _)
    exact not_inRange_end dest small ((bounded.stores _).mp stored)
  · intro full
    have count : (text.take n.toNat).length = n.toNat := List.length_take_of_le full
    rw [@strncpy_full (.start memory) _ _ _ _ string unread full]
    refine ⟨?_, ?_, ?_, ?_⟩
    · intro address
      rw [mem_addresses_start (by omega), count]
    · intro offset below inside
      rw [StoreLog.storeAll_inside (by omega) (by omega), List.getElem_take]
    · intro offset behind inside
      omega
    · intro address outside
      exact StoreLog.storeAll_outside (by omega) (by rwa [count])

theorem strncat_bounded_iff (atDest : StringAt memory dest old) (string : StringAt memory src text)
    (unread : Unread (dest + BitVec.ofNat 64 old.length) src text) :
    StrncatBounded memory dest n old text (strncat (.start memory) dest src n) ↔
      n.toNat ≤ text.length := by
  have small := n.isLt
  constructor
  · intro bounded
    by_contra longer
    have ended := Nat.lt_of_not_le longer
    have count : (text ++ [0#8] ++ [0#8]).length = text.length + 2 := by
      simp
    have stored : dest + BitVec.ofNat 64 old.length + BitVec.ofNat 64 (text.length + 1) ∈
        (strncat (.start memory) dest src n).addresses := by
      rw [@strncat_ended (.start memory) _ _ _ _ _ atDest string unread ended,
        mem_addresses_start (by omega), count]
      exact inRange_offset _ (by omega) (by omega)
    have inside := (bounded.stores _).mp stored
    rw [Nat.min_eq_right (by omega)] at inside
    exact not_inRange_end _ (by omega) inside
  · intro full
    have taken : (text.take n.toNat).length = n.toNat := List.length_take_of_le full
    have count : (text.take n.toNat ++ [0#8]).length = n.toNat + 1 := by
      rw [List.length_append, taken, List.length_singleton]
    have least : min n.toNat text.length = n.toNat := Nat.min_eq_left full
    rw [@strncat_full (.start memory) _ _ _ _ _ atDest string unread full]
    refine ⟨?_, ?_, ?_, ?_⟩
    · intro address
      rw [mem_addresses_start (by omega), count, least]
    · intro offset below inside
      rw [StoreLog.storeAll_inside (by omega) (by omega),
        List.getElem_append_left (by omega), List.getElem_take]
    · rw [least, StoreLog.storeAll_inside (by omega) (by omega),
        List.getElem_append_right (by omega)]
      simp
    · intro address outside
      rw [least] at outside
      exact StoreLog.storeAll_outside (by omega) (by rwa [count])

/-- The bounded copies stay in their bounds exactly if they do not reach the terminator of
the string they copy. -/
theorem bounded_copies_iff (dest src n : U64) (string : StringAt memory src text) :
    (Unread dest src text →
      (StrncpyBounded memory dest n text (strncpy (.start memory) dest src n) ↔
        n.toNat ≤ text.length)) ∧
    ∀ old, StringAt memory dest old → Unread (dest + BitVec.ofNat 64 old.length) src text →
      (StrncatBounded memory dest n old text (strncat (.start memory) dest src n) ↔
        n.toNat ≤ text.length) :=
  ⟨strncpy_bounded_iff string, fun _ atDest unread => strncat_bounded_iff atDest string unread⟩

/-- The string `a` at address 0x200, and zeros. -/
def oneLetter : Memory := fun address => if address = 0x200#64 then charLowerA else 0#8

theorem oneLetter_string : StringAt oneLetter 0x200#64 [charLowerA] := ⟨rfl, by decide, rfl⟩

/-- One character is copied to address 0x100. -/
theorem bounded_copies_iff_one :
    StrncpyBounded oneLetter 0x100#64 1#64 [charLowerA]
      (strncpy (.start oneLetter) 0x100#64 0x200#64 1#64) := by
  refine ((bounded_copies_iff 0x100#64 0x200#64 1#64 oneLetter_string).1 ?_).mpr (by decide)
  refine unread_of_apart fun offset below other otherBelow => ?_
  simp only [List.length_singleton] at below otherBelow
  bv_omega

/-- Where two characters may be stored, the string of one is stored with two terminators. -/
theorem bounded_copies_store_behind :
    StringAt oneLetter 0x200#64 [charLowerA] ∧ StringAt oneLetter 0x100#64 [] ∧
      (strncpy (.start oneLetter) 0x100#64 0x200#64 2#64).addresses =
        [0x100#64, 0x101#64, 0x102#64] ∧
      ¬StrncpyBounded oneLetter 0x100#64 2#64 [charLowerA]
        (strncpy (.start oneLetter) 0x100#64 0x200#64 2#64) ∧
      (strncat (.start oneLetter) 0x100#64 0x200#64 2#64).addresses =
        [0x100#64, 0x101#64, 0x102#64] ∧
      ¬StrncatBounded oneLetter 0x100#64 2#64 [] [charLowerA]
        (strncat (.start oneLetter) 0x100#64 0x200#64 2#64) := by
  have copied : (strncpy (.start oneLetter) 0x100#64 0x200#64 2#64).addresses =
      [0x100#64, 0x101#64, 0x102#64] := by decide +kernel
  have appended : (strncat (.start oneLetter) 0x100#64 0x200#64 2#64).addresses =
      [0x100#64, 0x101#64, 0x102#64] := by decide +kernel
  refine ⟨oneLetter_string, rfl, copied, ?_, appended, ?_⟩
  · intro bounded
    have inside := (bounded.stores 0x102#64).mp (by rw [copied]; decide)
    revert inside
    decide
  · intro bounded
    have inside := (bounded.stores 0x102#64).mp (by rw [appended]; decide)
    revert inside
    decide

/-- `strndup` asks `strncpy` for no more characters than the string has: it stores to the
block it requested and nowhere else. -/
theorem strndup_stores (string : StringAt memory src text) (unread : Unread copy src text)
    (nonnull : copy ≠ 0#64) :
    strndup (.start memory) copy src n =
      (StoreLog.start memory).storeAll copy (text.take n.toNat ++ [0#8]) := by
  have short := string.short
  have isLength : (BitVec.ofNat 64 text.length).toNat = text.length := by
    rw [BitVec.toNat_ofNat, Nat.mod_eq_of_lt short]
  have isLen : (if strlen memory src > n then n else strlen memory src) =
      BitVec.ofNat 64 (text.take n.toNat).length := by
    rw [string.strlen_eq, List.length_take]
    split_ifs with longer
    · rw [gt_iff_lt, BitVec.lt_def, isLength] at longer
      rw [Nat.min_eq_left longer.le, BitVec.ofNat_toNat, BitVec.setWidth_eq]
    · rw [gt_iff_lt, BitVec.lt_def, isLength] at longer
      rw [Nat.min_eq_right (Nat.le_of_not_lt longer)]
  have least : (BitVec.ofNat 64 (text.take n.toNat).length).toNat = min n.toNat text.length := by
    rw [BitVec.toNat_ofNat, List.length_take, Nat.mod_eq_of_lt]
    omega
  have full : (BitVec.ofNat 64 (text.take n.toNat).length).toNat ≤ text.length := by
    rw [least]
    exact Nat.min_le_right _ _
  have taken : text.take (min n.toNat text.length) = text.take n.toNat := by
    rw [← List.take_take, List.take_length]
  have whole : strndup (.start memory) copy src n =
      (strncpy (.start memory) copy src (BitVec.ofNat 64 (text.take n.toNat).length)).store
        (copy + BitVec.ofNat 64 (text.take n.toNat).length) 0#8 := by
    rw [strndup, if_neg nonnull]
    change (strncpy _ _ _ (if strlen memory src > n then n else strlen memory src)).store
      (copy + if strlen memory src > n then n else strlen memory src) _ = _
    rw [isLen]
  rw [whole, @strncpy_full (.start memory) _ _ _ _ string unread full, least, taken,
    StoreLog.storeAll_append]
  rfl

end Nekonix
