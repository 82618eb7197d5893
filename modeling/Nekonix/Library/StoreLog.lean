import Nekonix.Library.FlatMemory

/-!
# Memory with a log of its stores

Byte stores into flat memory that are written down, so that a store counts even where it
changes nothing.
-/

namespace FlatMemory

/-- The memory and the addresses stored to so far, in order. -/
structure StoreLog where
  memory : Memory
  addresses : List (BitVec 64)

namespace StoreLog

variable {log : StoreLog} {base address : BitVec 64} {bytes more : List (BitVec 8)}

/-- Nothing stored yet. -/
def start (memory : Memory) : StoreLog := ⟨memory, []⟩

def store (log : StoreLog) (address : BitVec 64) (byte : BitVec 8) : StoreLog where
  memory := Function.update log.memory address byte
  addresses := log.addresses ++ [address]

/-- One byte after the other from `base` on. -/
def storeAll (log : StoreLog) (base : BitVec 64) : (bytes : List (BitVec 8)) → StoreLog
  | [] => log
  | byte :: bytes => (log.store base byte).storeAll (base + 1#64) bytes

@[simp]
theorem storeAll_nil : log.storeAll base [] = log := rfl

@[simp]
theorem storeAll_cons {byte : BitVec 8} :
    log.storeAll base (byte :: bytes) = (log.store base byte).storeAll (base + 1#64) bytes := rfl

theorem storeAll_append : log.storeAll base (bytes ++ more) =
    (log.storeAll base bytes).storeAll (base + BitVec.ofNat 64 bytes.length) more := by
  induction bytes generalizing log base with
  | nil => simp
  | cons byte bytes inductionHypothesis =>
      rw [List.cons_append, storeAll_cons, storeAll_cons, inductionHypothesis, List.length_cons]
      congr 1
      exact add_one_add_ofNat base bytes.length

/-- A range is stored to from its first address to its last one. -/
theorem addresses_storeAll : (log.storeAll base bytes).addresses =
    log.addresses ++ (List.range bytes.length).map fun offset => base + BitVec.ofNat 64 offset := by
  induction bytes generalizing log base with
  | nil => simp
  | cons byte bytes inductionHypothesis =>
      rw [storeAll_cons, inductionHypothesis, List.length_cons, List.range_succ_eq_map,
        List.map_cons, List.map_map, store, List.append_assoc, List.singleton_append,
        BitVec.add_zero]
      congr 2
      exact List.map_congr_left fun offset _ => add_one_add_ofNat base offset

theorem mem_addresses_storeAll (short : bytes.length ≤ 2 ^ 64) :
    address ∈ (log.storeAll base bytes).addresses ↔
      address ∈ log.addresses ∨ InRange base bytes.length address := by
  rw [addresses_storeAll, List.mem_append, List.mem_map]
  refine or_congr_right ?_
  constructor
  · rintro ⟨offset, below, rfl⟩
    have below := List.mem_range.mp below
    exact inRange_offset base (by omega) below
  · intro inside
    refine ⟨(address - base).toNat, List.mem_range.mpr inside, ?_⟩
    rw [BitVec.ofNat_toNat, BitVec.setWidth_eq, BitVec.add_comm, BitVec.sub_add_cancel]

theorem storeAll_outside (short : bytes.length ≤ 2 ^ 64)
    (outside : ¬InRange base bytes.length address) :
    (log.storeAll base bytes).memory address = log.memory address := by
  induction bytes generalizing log base with
  | nil => rfl
  | cons byte bytes inductionHypothesis =>
      rw [List.length_cons] at short outside
      have notFirst : address ≠ base := by
        rintro rfl
        exact outside (by simp [InRange])
      have notBehind : ¬InRange (base + 1#64) bytes.length address := by
        intro behind
        unfold InRange at behind outside
        have apart : address - base ≠ 0#64 := by
          intro same
          exact notFirst (by rw [← BitVec.sub_add_cancel address base, same, BitVec.zero_add])
        have distance : address - (base + 1#64) = address - base - 1#64 := by
          rw [BitVec.sub_sub]
        rw [distance] at behind
        bv_omega
      rw [storeAll_cons, inductionHypothesis (Nat.le_of_succ_le short) notBehind]
      exact Function.update_of_ne notFirst _ _

theorem storeAll_inside (short : bytes.length ≤ 2 ^ 64) {offset : Nat}
    (inside : offset < bytes.length) :
    (log.storeAll base bytes).memory (base + BitVec.ofNat 64 offset) = bytes[offset] := by
  induction bytes generalizing log base offset with
  | nil => cases inside
  | cons byte bytes inductionHypothesis =>
      rw [List.length_cons] at short inside
      cases offset with
      | zero =>
          have before : ¬InRange (base + 1#64) bytes.length (base + BitVec.ofNat 64 0) := by
            unfold InRange
            bv_omega
          rw [storeAll_cons, storeAll_outside (Nat.le_of_succ_le short) before, BitVec.add_zero]
          exact Function.update_self ..
      | succ offset =>
          rw [storeAll_cons, ← add_one_add_ofNat base offset]
          exact inductionHypothesis (Nat.le_of_succ_le short) (Nat.lt_of_succ_lt_succ inside)

end StoreLog

end FlatMemory
