import Mathlib.Data.BitVec
import Nekonix.Library.Loop

/-!
# Counting loops

Loops whose state is a machine word that each turn moves by one stride towards a bound.
The words wrap around, so whether such a loop ends depends on the bound as well.
-/

namespace Loop

variable {width : Nat}

/-- `i < bound; i += stride` -/
def countUp (bound stride i : BitVec width) : Turn (BitVec width) Unit :=
  if i < bound then .next (i + stride) else .leave ()

/-- `i >= bound; i -= stride` -/
def countDown (bound stride i : BitVec width) : Turn (BitVec width) Unit :=
  if i ≥ bound then .next (i - stride) else .leave ()

/-- `i`, `i + stride` and so on, `count` words. -/
def upwards (stride i : BitVec width) (count : Nat) : List (BitVec width) :=
  (List.range count).map fun turn => i + BitVec.ofNat width turn * stride

/-- `i`, `i - stride` and so on, `count` words. -/
def downwards (stride i : BitVec width) (count : Nat) : List (BitVec width) :=
  (List.range count).map fun turn => i - BitVec.ofNat width turn * stride

variable {bound stride i : BitVec width} {turns : Nat}

theorem upwards_succ (stride i : BitVec width) (count : Nat) :
    upwards stride i (count + 1) = i :: upwards stride (i + stride) count := by
  unfold upwards
  rw [List.range_succ_eq_map, List.map_cons, List.map_map]
  congr 1
  · rw [BitVec.zero_mul, BitVec.add_zero]
  · apply List.map_congr_left
    intro turn _
    simp only [Function.comp_apply, Nat.succ_eq_add_one, BitVec.ofNat_add, BitVec.add_mul]
    rw [BitVec.one_mul]
    ac_rfl

theorem downwards_succ (stride i : BitVec width) (count : Nat) :
    downwards stride i (count + 1) = i :: downwards stride (i - stride) count := by
  unfold downwards
  rw [List.range_succ_eq_map, List.map_cons, List.map_map]
  congr 1
  · rw [BitVec.zero_mul, BitVec.sub_zero]
  · apply List.map_congr_left
    intro turn _
    simp only [Function.comp_apply, Nat.succ_eq_add_one, BitVec.ofNat_add, BitVec.add_mul]
    rw [BitVec.one_mul, BitVec.sub_sub, BitVec.add_comm]

theorem dropLast_upwards (stride i : BitVec width) (count : Nat) :
    (upwards stride i (count + 1)).dropLast = upwards stride i count := by
  unfold upwards
  rw [List.range_succ, List.map_append, List.map_singleton, List.dropLast_concat]

theorem dropLast_downwards (stride i : BitVec width) (count : Nat) :
    (downwards stride i (count + 1)).dropLast = downwards stride i count := by
  unfold downwards
  rw [List.range_succ, List.map_append, List.map_singleton, List.dropLast_concat]

/-- A loop that counts up ends after as many turns as strides fit before the bound, if the
bound is no further than one stride from the end of the words. -/
theorem countUp_ends (near : i.toNat + turns * stride.toNat < 2 ^ width)
    (before : ∀ turn < turns, i.toNat + turn * stride.toNat < bound.toNat)
    (behind : bound.toNat ≤ i.toNat + turns * stride.toNat) :
    Ends (countUp bound stride) i (upwards stride i (turns + 1)) () := by
  induction turns generalizing i with
  | zero =>
      have outside : ¬i < bound := by
        rw [BitVec.lt_def]
        omega
      rw [upwards_succ]
      exact .leave (if_neg outside)
  | succ turns inductionHypothesis =>
      have inside : i < bound := by
        rw [BitVec.lt_def]
        have first := before 0 (Nat.succ_pos turns)
        omega
      rw [Nat.succ_mul] at near behind
      have moved : (i + stride).toNat = i.toNat + stride.toNat := by
        rw [BitVec.toNat_add, Nat.mod_eq_of_lt]
        omega
      rw [upwards_succ]
      refine .turn (if_pos inside) (inductionHypothesis ?_ ?_ ?_)
      · omega
      · intro turn less
        have later := before (turn + 1) (Nat.succ_lt_succ less)
        rw [Nat.succ_mul] at later
        omega
      · omega

/-- A loop that counts down ends below its bound, if it can get there without passing 0. -/
theorem countDown_ends (room : turns * stride.toNat ≤ i.toNat)
    (inside : ∀ turn < turns, bound.toNat + turn * stride.toNat ≤ i.toNat)
    (below : i.toNat < bound.toNat + turns * stride.toNat) :
    Ends (countDown bound stride) i (downwards stride i (turns + 1)) () := by
  induction turns generalizing i with
  | zero =>
      have outside : ¬i ≥ bound := by
        rw [ge_iff_le, BitVec.le_def]
        omega
      rw [downwards_succ]
      exact .leave (if_neg outside)
  | succ turns inductionHypothesis =>
      have goesOn : i ≥ bound := by
        rw [ge_iff_le, BitVec.le_def]
        have first := inside 0 (Nat.succ_pos turns)
        omega
      rw [Nat.succ_mul] at room below
      have moved : (i - stride).toNat = i.toNat - stride.toNat :=
        BitVec.toNat_sub_of_le (by rw [BitVec.le_def]; omega)
      rw [downwards_succ]
      refine .turn (if_pos goesOn) (inductionHypothesis ?_ ?_ ?_)
      · omega
      · intro turn less
        have later := inside (turn + 1) (Nat.succ_lt_succ less)
        rw [Nat.succ_mul] at later
        omega
      · omega

/-! Loops that do something in each turn -/

universe u

variable {State : Type u} {act : BitVec width → State → State} {state : State}

/-- `for (; i < bound; i += stride) act(i);` -/
def forUp (bound stride : BitVec width) (act : BitVec width → State → State) :
    BitVec width × State → Turn (BitVec width × State) State
  | (i, state) => if i < bound then .next (i + stride, act i state) else .leave state

/-- What is done in the turns does not touch the counter. -/
theorem forUp_ends {heads : List (BitVec width)} {done : Unit}
    (ends : Ends (countUp bound stride) i heads done) :
    ∃ states, states.length = heads.length ∧
      Ends (forUp bound stride act) (i, state) states
        (heads.dropLast.foldl (fun state i => act i state) state) := by
  induction ends generalizing state with
  | @leave i done left =>
      have outside : ¬i < bound := by
        intro inside
        rw [countUp, if_pos inside] at left
        cases left
      exact ⟨[(i, state)], rfl, .leave (if_neg outside)⟩
  | @turn i next heads done isNext further inductionHypothesis =>
      have inside : i < bound := by
        by_contra outside
        rw [countUp, if_neg outside] at isNext
        cases isNext
      rw [countUp, if_pos inside] at isNext
      cases isNext
      obtain ⟨states, length, later⟩ := @inductionHypothesis (act i state)
      refine ⟨(i, state) :: states, by rw [List.length_cons, length, List.length_cons], ?_⟩
      have atLeast : heads ≠ [] := by
        rintro rfl
        cases further
      rw [List.dropLast_cons_of_ne_nil atLeast, List.foldl_cons]
      exact .turn (if_pos inside) later

/-- Counting down to 0 never ends. -/
theorem countDown_zero (stride i : BitVec width) {heads : List (BitVec width)} :
    ¬Ends (countDown 0 stride) i heads () :=
  not_ends (fun _ => True) (fun _ _ => ⟨_, if_pos (Nat.zero_le _), trivial⟩) trivial

end Loop
