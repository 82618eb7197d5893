import Nekonix.Library.FlatMemory.Blocks
import Nekonix.Mm.Liballoc

/-!
# The copy loops of the heap

`liballoc_memcpy` copies words and then the bytes that are left.  Between ranges without a common
byte that is what the byte loop of `memcpy` does.
-/

namespace Nekonix

open FlatMemory

variable {memory source : Memory} {address : U64}

theorem storeWord_eq_copy (memory : Memory) (ldest lsrc : U64) :
    Memory.store32 memory ldest (Memory.load32 memory lsrc) = copy memory memory 4 ldest lsrc :=
  store_load_eq_copy memory memory ldest lsrc

/-- The word loop copies a block that it does not write over. -/
theorem liballocCopyWords_eq_copy {ldest lsrc : U64} {words : Nat} (short : 4 * words ≤ 2 ^ 64)
    (agree : ∀ offset < 4 * words,
      memory (lsrc + BitVec.ofNat 64 offset) = source (lsrc + BitVec.ofNat 64 offset))
    (apart : ∀ offset < 4 * words, ¬InRange ldest (4 * words) (lsrc + BitVec.ofNat 64 offset)) :
    liballocCopyWords memory ldest lsrc words = copy memory source (4 * words) ldest lsrc := by
  induction words generalizing memory ldest lsrc with
  | zero =>
      funext address
      simp [liballocCopyWords, copy, InRange]
  | succ words inductionHypothesis =>
      have total : 4 * (words + 1) = 4 + 4 * words := by omega
      rw [total] at short agree apart ⊢
      have firstWord : copy memory memory 4 ldest lsrc = copy memory source 4 ldest lsrc := by
        funext address
        by_cases inside : InRange ldest 4 address
        · have position : lsrc + BitVec.ofNat 64 (address - ldest).toNat =
              lsrc + (address - ldest) := by
            rw [BitVec.ofNat_toNat, BitVec.setWidth_eq]
          have read := agree (address - ldest).toNat (by unfold InRange at inside; omega)
          rw [copy_inside inside, copy_inside inside, ← position, read]
        · rw [copy_outside inside, copy_outside inside]
      have later : ∀ offset, lsrc + 4#64 + BitVec.ofNat 64 offset =
          lsrc + BitVec.ofNat 64 (4 + offset) := by
        intro offset
        rw [BitVec.add_assoc, BitVec.ofNat_add]
      rw [liballocCopyWords, storeWord_eq_copy, firstWord, inductionHypothesis (by omega) ?_ ?_]
      · exact copy_append short
      · intro offset below
        have off := apart (4 + offset) (by omega)
        rw [inRange_append short] at off
        rw [later, copy_outside fun inFirst => off (Or.inl inFirst)]
        exact agree (4 + offset) (by omega)
      · intro offset below inRest
        rw [later] at inRest
        exact apart (4 + offset) (by omega) ((inRange_append short).mpr (Or.inr inRest))

/-- A copy loop writes to its destination only. -/
theorem liballocCopyWords_outside {ldest lsrc : U64} {words : Nat} (short : 4 * words ≤ 2 ^ 64)
    (outside : ¬InRange ldest (4 * words) address) :
    liballocCopyWords memory ldest lsrc words address = memory address := by
  induction words generalizing memory ldest lsrc with
  | zero => rfl
  | succ words inductionHypothesis =>
      have total : 4 * (words + 1) = 4 + 4 * words := by omega
      rw [total] at short outside
      rw [inRange_append short] at outside
      rw [liballocCopyWords, inductionHypothesis (by omega) fun inRest => outside (Or.inr inRest),
        storeWord_eq_copy, copy_outside fun inFirst => outside (Or.inl inFirst)]

theorem liballocMemcpy_outside {s1 s2 : U64} {n : Nat} (short : n ≤ 2 ^ 64)
    (outside : ¬InRange s1 n address) : liballocMemcpy memory s1 s2 n address = memory address := by
  have total : n = 4 * (n / 4) + n % 4 := (Nat.div_add_mod n 4).symm
  rw [total, inRange_append (by omega)] at outside
  unfold liballocMemcpy
  rw [memcpy_outside (by omega) fun inRest => outside (Or.inr inRest),
    liballocCopyWords_outside (by omega) fun inWords => outside (Or.inl inWords)]

/-- The words and the rest together are the block. -/
theorem liballocMemcpy_eq_copy {s1 s2 : U64} {n : Nat} (short : n ≤ 2 ^ 64)
    (apart : ∀ offset < n, ¬InRange s1 n (s2 + BitVec.ofNat 64 offset)) :
    liballocMemcpy memory s1 s2 n = copy memory memory n s1 s2 := by
  have total : n = 4 * (n / 4) + n % 4 := (Nat.div_add_mod n 4).symm
  unfold liballocMemcpy
  dsimp only
  generalize n / 4 = words at *
  generalize n % 4 = rest at *
  subst total
  have later : ∀ offset, s2 + BitVec.ofNat 64 (4 * words) + BitVec.ofNat 64 offset =
      s2 + BitVec.ofNat 64 (4 * words + offset) := by
    intro offset
    rw [BitVec.add_assoc, BitVec.ofNat_add]
  have ofWords : ∀ offset < 4 * words, ¬InRange s1 (4 * words) (s2 + BitVec.ofNat 64 offset) :=
    fun offset below inWords =>
      apart offset (by omega) ((inRange_append short).mpr (Or.inl inWords))
  rw [liballocCopyWords_eq_copy (by omega) (fun _ _ => rfl) ofWords, memcpy_eq_copy (by omega) ?_ ?_]
  · exact copy_append short
  · intro offset below
    have off := apart (4 * words + offset) (by omega)
    rw [inRange_append short] at off
    rw [later, copy_outside fun inWords => off (Or.inl inWords)]
  · intro offset below inRest
    rw [later] at inRest
    exact apart (4 * words + offset) (by omega) ((inRange_append short).mpr (Or.inr inRest))

/-- The copy loop of the heap is that of `memcpy`. -/
theorem liballocMemcpy_eq_memcpy {s1 s2 : U64} {n : Nat} (short : n ≤ 2 ^ 64)
    (apart : ∀ offset < n, ¬InRange s1 n (s2 + BitVec.ofNat 64 offset)) :
    liballocMemcpy memory s1 s2 n = memcpy memory s1 s2 n := by
  rw [liballocMemcpy_eq_copy short apart, memcpy_eq_copy short (fun _ _ => rfl) apart]

theorem liballocMemcpy_eq_memcpy_six :
    liballocMemcpy (fun address => address.setWidth 8) 0x2000#64 0x1000#64 6 =
      memcpy (fun address => address.setWidth 8) 0x2000#64 0x1000#64 6 :=
  liballocMemcpy_eq_memcpy (by decide) (by decide)

end Nekonix
