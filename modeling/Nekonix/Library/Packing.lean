import Mathlib.Algebra.GroupWithZero.Nat
import Mathlib.Algebra.Order.BigOperators.Group.List
import Mathlib.Data.List.Basic
import Mathlib.Data.List.Pairwise

/-!
# Items packed into a span

Items with a first and a past-the-end position, in order and without overlap between `low` and
`high`.  A gap is what lies between an item and the next one; the items and the gaps share the
span among them.
-/

namespace Packing

universe u

variable {Item : Type u} (start stop : Item → Nat)

/-- The items follow one another from `low` on and end at or below `high`. -/
def Packed : (low : Nat) → List Item → (high : Nat) → Prop
  | low, [], high => low ≤ high
  | low, item :: rest, high => low ≤ start item ∧ start item ≤ stop item ∧ Packed (stop item) rest high

/-- Where the gap behind the items begins. -/
def gapStart : (low : Nat) → List Item → Nat
  | low, [] => low
  | _, item :: rest => gapStart (stop item) rest

/-- Where the gap in front of the items ends. -/
def gapStop (items : List Item) (high : Nat) : Nat := (items.head?.map start).getD high

/-- Room for `need` between two of the items, in front of the first or behind the last. -/
def HasGap (low : Nat) (items : List Item) (high need : Nat) : Prop :=
  ∃ front back, items = front ++ back ∧ gapStart stop low front + need ≤ gapStop start back high

/-- What the items take up. -/
def used (items : List Item) : Nat := (items.map fun item => stop item - start item).sum

variable {start stop} {low high : Nat} {item : Item} {items front back : List Item}

@[simp]
theorem packed_nil : Packed start stop low [] high ↔ low ≤ high := Iff.rfl

@[simp]
theorem packed_cons : Packed start stop low (item :: items) high ↔
    low ≤ start item ∧ start item ≤ stop item ∧ Packed start stop (stop item) items high := Iff.rfl

@[simp]
theorem gapStart_nil : gapStart stop low [] = low := rfl

@[simp]
theorem gapStart_cons : gapStart stop low (item :: items) = gapStart stop (stop item) items := rfl

@[simp]
theorem gapStop_nil : gapStop start [] high = high := rfl

@[simp]
theorem gapStop_cons : gapStop start (item :: items) high = start item := rfl

theorem gapStart_append_singleton :
    gapStart stop low (front ++ [item]) = stop item := by
  induction front generalizing low with
  | nil => rfl
  | cons first rest inductionHypothesis => exact inductionHypothesis

@[simp]
theorem used_nil : used start stop [] = 0 := rfl

@[simp]
theorem used_cons : used start stop (item :: items) =
    (stop item - start item) + used start stop items := by
  simp [used]

@[simp]
theorem used_append : used start stop (front ++ back) =
    used start stop front + used start stop back := by
  simp [used]

theorem packed_append : Packed start stop low (front ++ back) high ↔
    Packed start stop low front (gapStart stop low front) ∧
      Packed start stop (gapStart stop low front) back high := by
  induction front generalizing low with
  | nil => simp
  | cons first rest inductionHypothesis =>
      rw [List.cons_append, packed_cons, inductionHypothesis, packed_cons, gapStart_cons,
        and_assoc, and_assoc]

namespace Packed

theorem low_le_gapStop (packed : Packed start stop low items high) :
    low ≤ gapStop start items high := by
  cases items with
  | nil => exact packed
  | cons item rest => exact packed.1

/-- What lies in the first gap may be cut off, or the gap be made larger. -/
theorem from_gap {low' : Nat} (packed : Packed start stop low items high)
    (inGap : low' ≤ gapStop start items high) : Packed start stop low' items high := by
  cases items with
  | nil => exact inGap
  | cons item rest => exact ⟨inGap, packed.2⟩

theorem le (packed : Packed start stop low items high) : low ≤ high := by
  induction items generalizing low with
  | nil => exact packed
  | cons item rest inductionHypothesis =>
      obtain ⟨behind, proper, further⟩ := packed
      exact (behind.trans proper).trans (inductionHypothesis further)

theorem bounds (packed : Packed start stop low items high) :
    ∀ item ∈ items, low ≤ start item ∧ start item ≤ stop item ∧ stop item ≤ high := by
  induction items generalizing low with
  | nil => simp
  | cons first rest inductionHypothesis =>
      obtain ⟨behind, proper, further⟩ := packed
      intro item member
      rcases List.mem_cons.mp member with rfl | later
      · exact ⟨behind, proper, further.le⟩
      · obtain ⟨above, within⟩ := inductionHypothesis further item later
        exact ⟨(behind.trans proper).trans above, within⟩

/-- Every item ends before the later ones begin. -/
theorem pairwise (packed : Packed start stop low items high) :
    items.Pairwise fun item later => stop item ≤ start later := by
  induction items generalizing low with
  | nil => exact List.Pairwise.nil
  | cons first rest inductionHypothesis =>
      obtain ⟨-, -, further⟩ := packed
      refine List.pairwise_cons.mpr ⟨?_, inductionHypothesis further⟩
      exact fun later member => (further.bounds later member).1

/-- Of two items one lies behind the other. -/
theorem apart {other : Item} (packed : Packed start stop low items high) (member : item ∈ items)
    (otherMember : other ∈ items) (different : item ≠ other) :
    stop item ≤ start other ∨ stop other ≤ start item := by
  have symmetric : Std.Symm fun first second : Item =>
      stop first ≤ start second ∨ stop second ≤ start first := ⟨fun _ _ => Or.symm⟩
  have either : items.Pairwise fun first second =>
      stop first ≤ start second ∨ stop second ≤ start first := packed.pairwise.imp Or.inl
  exact either.forall member otherMember different

/-- A new item in a gap. -/
theorem insert (packed : Packed start stop low (front ++ back) high)
    (above : gapStart stop low front ≤ start item) (proper : start item ≤ stop item)
    (below : stop item ≤ gapStop start back high) :
    Packed start stop low (front ++ item :: back) high := by
  obtain ⟨inFront, inBack⟩ := packed_append.mp packed
  exact packed_append.mpr ⟨inFront, above, proper, inBack.from_gap below⟩

theorem remove (packed : Packed start stop low (front ++ item :: back) high) :
    Packed start stop low (front ++ back) high := by
  obtain ⟨inFront, above, proper, inBack⟩ := packed_append.mp packed
  refine packed_append.mpr ⟨inFront, inBack.from_gap ?_⟩
  exact (above.trans proper).trans inBack.low_le_gapStop

theorem used_le (packed : Packed start stop low items high) :
    low + used start stop items ≤ high := by
  induction items generalizing low with
  | nil => exact packed
  | cons item rest inductionHypothesis =>
      obtain ⟨behind, proper, further⟩ := packed
      have rest := inductionHypothesis further
      rw [used_cons]
      omega

/-- A gap and the items fit into the span together. -/
theorem gap_le (packed : Packed start stop low (front ++ back) high) :
    gapStop start back high + low + used start stop (front ++ back) ≤
      high + gapStart stop low front := by
  obtain ⟨inFront, inBack⟩ := packed_append.mp packed
  have front := inFront.used_le
  have back : gapStop start back high + used start stop back ≤ high :=
    (inBack.from_gap le_rfl).used_le
  rw [used_append]
  omega

/-- Where not enough is free in all, no gap is large enough. -/
theorem not_hasGap {need : Nat} (packed : Packed start stop low items high)
    (full : high < low + used start stop items + need) : ¬HasGap start stop low items high need := by
  rintro ⟨front, back, rfl, room⟩
  have gap := packed.gap_le
  omega

end Packed

/-- The gaps of a list are those in front of its first item and those behind it. -/
theorem hasGap_cons {need : Nat} : HasGap start stop low (item :: items) high need ↔
    low + need ≤ start item ∨ HasGap start stop (stop item) items high need := by
  constructor
  · rintro ⟨front, back, isList, room⟩
    cases front with
    | nil =>
        rw [List.nil_append] at isList
        subst isList
        exact Or.inl room
    | cons first rest =>
        obtain ⟨rfl, rfl⟩ := List.cons.inj isList
        exact Or.inr ⟨rest, back, rfl, room⟩
  · rintro (room | ⟨front, back, rfl, room⟩)
    · exact ⟨[], item :: items, rfl, room⟩
    · exact ⟨item :: front, back, rfl, room⟩

theorem hasGap_nil {need : Nat} : HasGap start stop low [] high need ↔ low + need ≤ high := by
  constructor
  · rintro ⟨front, back, isList, room⟩
    obtain ⟨rfl, rfl⟩ := List.append_eq_nil_iff.mp isList.symm
    exact room
  · exact fun room => ⟨[], [], rfl, room⟩

end Packing
