import Mathlib.Data.Set.Insert
import Nekonix.Mm.Vma
import Nekonix.Mm.Vmm.Tables

/-!
# Region records in page frames

Every `vma_region_t` lies at the start of a frame of its own.  A set of such frames
that `next` does not lead out of has all that the walks of `vma_alloc` can find, and
linking a new record keeps it so.
-/

namespace Nekonix

open FlatMemory

variable {hhdmOffset size flags address offset other : U64} {memory after : Memory}
  {record previous root : Frame} {records : Set Frame}

/-! Fields of a record -/

theorem field_outside {base : U64} {length : Nat} (off : ¬InRange base length address)
    (small : offset.toNat + 8 ≤ length) : ¬InRange (base + offset) 8 address := by
  unfold InRange at *
  bv_omega

theorem fields_separate {base : U64} (below : offset.toNat + 8 ≤ other.toNat)
    (small : other.toNat + 8 ≤ 4096) : Separate (base + offset) 8 (base + other) 8 := by
  intro address inField inOther
  unfold InRange at *
  bv_omega

theorem start_separate {base : U64} (behind : 8 ≤ offset.toNat) (small : offset.toNat + 8 ≤ 4096) :
    Separate (base + offset) 8 base 8 := by
  intro address inField inStart
  unfold InRange at *
  bv_omega

theorem Frame.fields_separate (different : record ≠ previous) (small : offset.toNat + 8 ≤ 4096)
    (smallOther : other.toNat + 8 ≤ 4096) :
    Separate (record.pointer hhdmOffset + offset) 8 (previous.pointer hhdmOffset + other) 8 := by
  intro address inField inOther
  apply different
  apply Frame.Holds.unique
  · by_contra off
    exact field_outside off small inField
  · by_contra off
    exact field_outside off smallOther inOther

theorem Frame.store64_outside {value : U64} (off : ¬record.Holds hhdmOffset address)
    (small : offset.toNat + 8 ≤ 4096) :
    Memory.store64 memory (record.pointer hhdmOffset + offset) value address = memory address :=
  store_outside (field_outside off small)

theorem Frame.store64_start_outside {value : U64} (off : ¬record.Holds hhdmOffset address) :
    Memory.store64 memory (record.pointer hhdmOffset) value address = memory address :=
  store_outside fun inStart => off (inStart.mono (by decide))

theorem Frame.load64_congr
    (same : ∀ address, record.Holds hhdmOffset address → after address = memory address)
    (small : offset.toNat + 8 ≤ 4096) :
    Memory.load64 after (record.pointer hhdmOffset + offset) =
      Memory.load64 memory (record.pointer hhdmOffset + offset) := by
  apply load_congr
  intro position below
  apply same
  by_contra off
  exact field_outside off small (inRange_offset _ (by omega) below)

theorem Frame.load64_start_congr
    (same : ∀ address, record.Holds hhdmOffset address → after address = memory address) :
    Memory.load64 after (record.pointer hhdmOffset) =
      Memory.load64 memory (record.pointer hhdmOffset) := by
  have start := @Frame.load64_congr hhdmOffset 0#64 memory after record same (by decide)
  rwa [BitVec.add_zero] at start

theorem Frame.regionEnd_congr
    (same : ∀ address, record.Holds hhdmOffset address → after address = memory address) :
    regionEnd after (record.pointer hhdmOffset) = regionEnd memory (record.pointer hhdmOffset) := by
  unfold regionEnd regionStart regionSize
  rw [Frame.load64_start_congr same, Frame.load64_congr same (by decide)]

/-- A store to a field leaves the other fields alone. -/
theorem load64_store64_field {value : U64} (small : offset.toNat + 8 ≤ 4096)
    (smallOther : other.toNat + 8 ≤ 4096)
    (apart : record ≠ previous ∨ offset.toNat + 8 ≤ other.toNat ∨
      other.toNat + 8 ≤ offset.toNat) :
    Memory.load64 (Memory.store64 memory (previous.pointer hhdmOffset + other) value)
        (record.pointer hhdmOffset + offset) =
      Memory.load64 memory (record.pointer hhdmOffset + offset) := by
  apply Memory.load64_store64_separate
  by_cases here : record = previous
  · rw [here]
    rcases apart.resolve_left (not_not.mpr here) with before | behind
    · exact fields_separate before smallOther
    · exact (fields_separate behind small).symm
  · exact Frame.fields_separate here small smallOther

/-- A store to `next` leaves the fields in front of it alone. -/
theorem load64_store64_next {value : U64} (small : offset.toNat + 8 ≤ 24) :
    Memory.load64 (Memory.store64 memory (previous.pointer hhdmOffset + 24#64) value)
        (record.pointer hhdmOffset + offset) =
      Memory.load64 memory (record.pointer hhdmOffset + offset) :=
  load64_store64_field (by omega) (by decide) (Or.inr (Or.inl small))

/-- What a new record in the list does: it begins where the region of `previous`
ends, it has its size and flags, `previous` leads to it, and it leads to itself, to
where `previous` led, or nowhere. -/
structure RegionLinked (hhdmOffset : U64) (memory : Memory) (record previous : Frame)
    (size flags : U64) (after : Memory) : Prop where
  outside : ∀ address, ¬record.Holds hhdmOffset address → ¬previous.Holds hhdmOffset address →
    after address = memory address
  size : Memory.load64 after (regionSize (record.pointer hhdmOffset)) = size
  flags : Memory.load64 after (regionFlags (record.pointer hhdmOffset)) = flags
  start : record ≠ previous → Memory.load64 after (regionStart (record.pointer hhdmOffset)) =
    regionEnd memory (previous.pointer hhdmOffset)
  link : nextRegion after (previous.pointer hhdmOffset) = record.pointer hhdmOffset
  next : record ≠ previous → nextRegion after (record.pointer hhdmOffset) = 0#64 ∨
    nextRegion after (record.pointer hhdmOffset) =
      nextRegion memory (previous.pointer hhdmOffset)

/-- The record that is appended leads nowhere. -/
theorem vmaAppend_next (different : record ≠ previous) :
    nextRegion (vmaAppend memory (record.pointer hhdmOffset) (previous.pointer hhdmOffset) size
        flags) (record.pointer hhdmOffset) = 0#64 := by
  unfold vmaAppend nextRegion regionStart regionSize regionFlags regionNext regionPrev
  dsimp only
  rw [Memory.load64_store64_separate (Frame.fields_separate different (by decide) (by decide)),
    Memory.load64_store64_separate (fields_separate (by decide) (by decide)),
    Memory.load64_store64_same]

theorem vmaAppend_linked :
    RegionLinked hhdmOffset memory record previous size flags
      (vmaAppend memory (record.pointer hhdmOffset) (previous.pointer hhdmOffset) size flags) where
  outside := by
    intro address offRecord offPrevious
    unfold vmaAppend regionStart regionSize regionFlags regionNext regionPrev
    rw [Frame.store64_outside offPrevious (by decide), Frame.store64_outside offRecord (by decide),
      Frame.store64_outside offRecord (by decide), Frame.store64_outside offRecord (by decide),
      Frame.store64_outside offRecord (by decide), Frame.store64_start_outside offRecord]
  size := by
    unfold vmaAppend regionStart regionSize regionFlags regionNext regionPrev
    dsimp only
    rw [load64_store64_next (by decide),
      Memory.load64_store64_separate (fields_separate (by decide) (by decide)),
      Memory.load64_store64_separate (fields_separate (by decide) (by decide)),
      Memory.load64_store64_separate (fields_separate (by decide) (by decide)),
      Memory.load64_store64_same]
  flags := by
    unfold vmaAppend regionStart regionSize regionFlags regionNext regionPrev
    dsimp only
    rw [load64_store64_next (by decide),
      Memory.load64_store64_separate (fields_separate (by decide) (by decide)),
      Memory.load64_store64_separate (fields_separate (by decide) (by decide)),
      Memory.load64_store64_same]
  start := by
    intro different
    have apart := @Frame.fields_separate hhdmOffset 0#64 24#64 _ _ different (by decide) (by decide)
    rw [BitVec.add_zero] at apart
    unfold vmaAppend regionStart regionSize regionFlags regionNext regionPrev
    dsimp only
    rw [Memory.load64_store64_separate apart,
      Memory.load64_store64_separate (start_separate (by decide) (by decide)).symm,
      Memory.load64_store64_separate (start_separate (by decide) (by decide)).symm,
      Memory.load64_store64_separate (start_separate (by decide) (by decide)).symm,
      Memory.load64_store64_separate (start_separate (by decide) (by decide)).symm,
      Memory.load64_store64_same]
  link := Memory.load64_store64_same _ _ _
  next := fun different => Or.inl (vmaAppend_next different)

/-- The record that is inserted leads to where `previous` led. -/
theorem vmaInsert_next (different : record ≠ previous) :
    nextRegion (vmaInsert memory (record.pointer hhdmOffset) (previous.pointer hhdmOffset) size
        flags) (record.pointer hhdmOffset) =
      nextRegion memory (previous.pointer hhdmOffset) := by
  have apart : ∀ {offset other : U64}, offset.toNat + 8 ≤ 4096 → other.toNat + 8 ≤ 4096 →
      Separate (previous.pointer hhdmOffset + offset) 8 (record.pointer hhdmOffset + other) 8 :=
    Frame.fields_separate different.symm
  unfold vmaInsert nextRegion regionStart regionSize regionFlags regionNext regionPrev
  dsimp only
  rw [Memory.load64_store64_separate (Frame.fields_separate different (by decide) (by decide)),
    Memory.load64_store64_separate (fields_separate (by decide) (by decide)),
    Memory.load64_store64_same, Memory.load64_store64_separate,
    Memory.load64_store64_separate (apart (by decide) (by decide)),
    Memory.load64_store64_separate (apart (by decide) (by decide))]
  have start := @apart 24#64 0#64 (by decide) (by decide)
  rw [BitVec.add_zero] at start
  exact start

theorem vmaInsert_linked :
    RegionLinked hhdmOffset memory record previous size flags
      (vmaInsert memory (record.pointer hhdmOffset) (previous.pointer hhdmOffset) size flags) where
  outside := by
    intro address offRecord offPrevious
    unfold vmaInsert regionStart regionSize regionFlags regionNext regionPrev
    rw [Frame.store64_outside offPrevious (by decide), Frame.store64_outside offRecord (by decide),
      Frame.store64_outside offRecord (by decide), Frame.store64_start_outside offRecord,
      Frame.store64_outside offRecord (by decide), Frame.store64_outside offRecord (by decide)]
  size := by
    unfold vmaInsert regionStart regionSize regionFlags regionNext regionPrev
    dsimp only
    rw [load64_store64_next (by decide),
      Memory.load64_store64_separate (fields_separate (by decide) (by decide)),
      Memory.load64_store64_separate (fields_separate (by decide) (by decide)),
      Memory.load64_store64_separate (start_separate (by decide) (by decide)),
      Memory.load64_store64_separate (fields_separate (by decide) (by decide)),
      Memory.load64_store64_same]
  flags := by
    unfold vmaInsert regionStart regionSize regionFlags regionNext regionPrev
    dsimp only
    rw [load64_store64_next (by decide),
      Memory.load64_store64_separate (fields_separate (by decide) (by decide)),
      Memory.load64_store64_separate (fields_separate (by decide) (by decide)),
      Memory.load64_store64_separate (start_separate (by decide) (by decide)),
      Memory.load64_store64_same]
  start := by
    intro different
    have apart := @Frame.fields_separate hhdmOffset 0#64 24#64 _ _ different (by decide) (by decide)
    rw [BitVec.add_zero] at apart
    unfold vmaInsert regionStart regionSize regionFlags regionNext regionPrev
    dsimp only
    rw [Memory.load64_store64_separate apart,
      Memory.load64_store64_separate (start_separate (by decide) (by decide)).symm,
      Memory.load64_store64_separate (start_separate (by decide) (by decide)).symm,
      Memory.load64_store64_same]
    apply Frame.regionEnd_congr
    intro address inPrevious
    have off : ¬record.Holds hhdmOffset address := fun inRecord =>
      different (inRecord.unique inPrevious)
    rw [Frame.store64_outside off (by decide), Frame.store64_outside off (by decide)]
  link := Memory.load64_store64_same _ _ _
  next := fun different => Or.inr (vmaInsert_next different)

/-! What a record keeps -/

/-- The record has the start and the size that it had. -/
structure SameExtent (hhdmOffset : U64) (memory after : Memory) (record : Frame) : Prop where
  start : Memory.load64 after (regionStart (record.pointer hhdmOffset)) =
    Memory.load64 memory (regionStart (record.pointer hhdmOffset))
  size : Memory.load64 after (regionSize (record.pointer hhdmOffset)) =
    Memory.load64 memory (regionSize (record.pointer hhdmOffset))

theorem SameExtent.trans {middle : Memory} (first : SameExtent hhdmOffset memory middle record)
    (second : SameExtent hhdmOffset middle after record) :
    SameExtent hhdmOffset memory after record :=
  ⟨second.start.trans first.start, second.size.trans first.size⟩

theorem SameExtent.regionEnd (same : SameExtent hhdmOffset memory after record) :
    regionEnd after (record.pointer hhdmOffset) =
      Nekonix.regionEnd memory (record.pointer hhdmOffset) := by
  unfold Nekonix.regionEnd
  rw [same.start, same.size]

/-- ... and its `prev` as well. -/
structure SameFields (hhdmOffset : U64) (memory after : Memory) (record : Frame) : Prop extends
    SameExtent hhdmOffset memory after record where
  prev : Memory.load64 after (regionPrev (record.pointer hhdmOffset)) =
    Memory.load64 memory (regionPrev (record.pointer hhdmOffset))

namespace SameFields

theorem of_same (same : ∀ address, record.Holds hhdmOffset address → after address = memory address) :
    SameFields hhdmOffset memory after record where
  start := Frame.load64_start_congr same
  size := Frame.load64_congr same (by decide)
  prev := Frame.load64_congr same (by decide)

theorem trans {middle : Memory} (first : SameFields hhdmOffset memory middle record)
    (second : SameFields hhdmOffset middle after record) :
    SameFields hhdmOffset memory after record :=
  ⟨first.toSameExtent.trans second.toSameExtent, second.prev.trans first.prev⟩

/-- A store to the `next` of a record. -/
theorem store_next {value : U64} :
    SameFields hhdmOffset memory
      (Memory.store64 memory (previous.pointer hhdmOffset + 24#64) value) record where
  start := by
    have kept := @load64_store64_next hhdmOffset 0#64 memory record previous value (by decide)
    rwa [BitVec.add_zero] at kept
  size := load64_store64_next (by decide)
  prev := load64_store64_field (by decide) (by decide) (Or.inr (Or.inr (by decide)))

end SameFields

theorem SameExtent.store_prev {value : U64} :
    SameExtent hhdmOffset memory
      (Memory.store64 memory (previous.pointer hhdmOffset + 32#64) value) record where
  start := by
    have kept := @load64_store64_field hhdmOffset 0#64 32#64 memory record previous value (by decide)
      (by decide) (Or.inr (Or.inl (by decide)))
    rwa [BitVec.add_zero] at kept
  size := load64_store64_field (by decide) (by decide) (Or.inr (Or.inl (by decide)))

theorem vmaAppend_prev (different : record ≠ previous) :
    Memory.load64 (vmaAppend memory (record.pointer hhdmOffset) (previous.pointer hhdmOffset) size
        flags) (regionPrev (record.pointer hhdmOffset)) = previous.pointer hhdmOffset := by
  unfold vmaAppend regionStart regionSize regionFlags regionNext regionPrev
  dsimp only
  rw [load64_store64_field (by decide) (by decide) (Or.inl different), Memory.load64_store64_same]

theorem vmaAppend_fields (different : record ≠ previous) :
    SameFields hhdmOffset memory
      (vmaAppend memory (record.pointer hhdmOffset) (previous.pointer hhdmOffset) size flags)
      previous := by
  refine .trans (.of_same fun address inPrevious => ?_) .store_next
  have off : ¬record.Holds hhdmOffset address := fun inRecord =>
    different (inRecord.unique inPrevious)
  unfold regionStart regionSize regionFlags regionNext regionPrev
  rw [Frame.store64_outside off (by decide), Frame.store64_outside off (by decide),
    Frame.store64_outside off (by decide), Frame.store64_outside off (by decide),
    Frame.store64_start_outside off]

theorem vmaInsert_prev (different : record ≠ previous) :
    Memory.load64 (vmaInsert memory (record.pointer hhdmOffset) (previous.pointer hhdmOffset) size
        flags) (regionPrev (record.pointer hhdmOffset)) = previous.pointer hhdmOffset := by
  unfold vmaInsert regionStart regionSize regionFlags regionNext regionPrev
  dsimp only
  rw [load64_store64_field (by decide) (by decide) (Or.inl different), Memory.load64_store64_same]

theorem vmaInsert_fields (different : record ≠ previous) :
    SameFields hhdmOffset memory
      (vmaInsert memory (record.pointer hhdmOffset) (previous.pointer hhdmOffset) size flags)
      previous := by
  refine .trans (.of_same fun address inPrevious => ?_) .store_next
  have off : ¬record.Holds hhdmOffset address := fun inRecord =>
    different (inRecord.unique inPrevious)
  unfold regionStart regionSize regionFlags regionNext regionPrev
  rw [Frame.store64_outside off (by decide), Frame.store64_outside off (by decide),
    Frame.store64_start_outside off, Frame.store64_outside off (by decide),
    Frame.store64_outside off (by decide)]

/-! Placing a record -/

/-- The context that `vma_alloc` rejects. -/
def InvalidContext (memory : Memory) (ctx : U64) : Prop :=
  ctx = 0#64 ∨ Memory.load64 memory (contextRoot ctx) = 0#64 ∨
    Memory.load64 memory (contextPagemap ctx) = 0#64

instance (memory : Memory) (ctx : U64) : Decidable (InvalidContext memory ctx) :=
  inferInstanceAs (Decidable (_ ∨ _ ∨ _))

theorem nextRegion_append (memory : Memory) (newRegion lastRegion size flags : U64) :
    nextRegion (vmaAppend memory newRegion lastRegion size flags) lastRegion = newRegion :=
  Memory.load64_store64_same _ _ _

theorem nextRegion_insert (memory : Memory) (newRegion region size flags : U64) :
    nextRegion (vmaInsert memory newRegion region size flags) region = newRegion :=
  Memory.load64_store64_same _ _ _

/-- Where a record that was requested and cleared goes, and the memory once it is linked:
behind the root if nothing is there, behind the last record if the search came round, or
behind the region that passed the test. -/
inductive RecordLinked (before cleared : Memory) (ctx size flags newRegion : U64) :
    (region : U64) → Memory → Prop where
  | alone : nextRegion before (Memory.load64 before (contextRoot ctx)) = 0#64 →
      RecordLinked before cleared ctx size flags newRegion (Memory.load64 cleared (contextRoot ctx))
        (vmaAppend cleared newRegion (Memory.load64 cleared (contextRoot ctx)) size flags)
  | last {lastRegion : U64} :
      nextRegion before (Memory.load64 before (contextRoot ctx)) ≠ 0#64 →
      vmaLastRegion cleared (2 ^ 64) (Memory.load64 cleared (contextRoot ctx)) = some lastRegion →
      RecordLinked before cleared ctx size flags newRegion lastRegion
        (vmaAppend cleared newRegion lastRegion size flags)
  | fitting {region : U64} :
      nextRegion before (Memory.load64 before (contextRoot ctx)) ≠ 0#64 →
      vmaSearch before (Memory.load64 before (contextRoot ctx)) size (2 ^ 64)
        (nextRegion before (Memory.load64 before (contextRoot ctx))) = some region →
      RecordLinked before cleared ctx size flags newRegion region
        (vmaInsert cleared newRegion region size flags)

theorem RecordLinked.next {before cleared : Memory} {ctx newRegion region : U64}
    (linked : RecordLinked before cleared ctx size flags newRegion region memory) :
    nextRegion memory region = newRegion := by
  cases linked with
  | alone => exact nextRegion_append ..
  | last => exact nextRegion_append ..
  | fitting => exact nextRegion_insert ..

/-- What `vma_alloc` has done by its mapping loop. -/
theorem vmaPlace_cases {machine requested placed : Machine} {ctx record newRegion : U64}
    (isRequest : requestRegion hhdmOffset machine = (record, requested))
    (isPlaced : vmaPlace hhdmOffset machine ctx size flags = some (newRegion, placed)) :
    newRegion = 0#64 ∧
        (InvalidContext machine.memory ctx ∧ placed = machine ∨
          record = 0#64 ∧ placed = requested) ∨
      newRegion = record ∧ record ≠ 0#64 ∧ ∃ region memory,
        RecordLinked machine.memory (memset requested.memory record 0#8 vmaRegionSize) ctx size flags
          record region memory ∧
        placed = { requested with memory } := by
  unfold vmaPlace at isPlaced
  rw [isRequest] at isPlaced
  dsimp only at isPlaced
  split_ifs at isPlaced with invalid alone failed failed
  · cases isPlaced
    exact Or.inl ⟨rfl, Or.inl ⟨invalid, rfl⟩⟩
  · cases isPlaced
    exact Or.inl ⟨rfl, Or.inr ⟨failed, rfl⟩⟩
  · cases isPlaced
    exact Or.inr ⟨rfl, failed, _, _, .alone alone, rfl⟩
  · obtain ⟨_, -, linked⟩ := Option.bind_eq_some_iff.mp isPlaced
    cases linked
    exact Or.inl ⟨rfl, Or.inr ⟨failed, rfl⟩⟩
  · obtain ⟨region, found, linked⟩ := Option.bind_eq_some_iff.mp isPlaced
    split_ifs at linked
    · obtain ⟨lastRegion, isLast, appended⟩ := Option.map_eq_some_iff.mp linked
      cases appended
      exact Or.inr ⟨rfl, failed, _, _, .last alone isLast, rfl⟩
    · cases linked
      exact Or.inr ⟨rfl, failed, _, _, .fitting alone found, rfl⟩

/-! Lists of records -/

/-- `next` leads from each record to a record. -/
def ClosedUnderNext (hhdmOffset : U64) (memory : Memory) (records : Set Frame) : Prop :=
  ∀ record ∈ records, ∃ other ∈ records,
    nextRegion memory (record.pointer hhdmOffset) = other.pointer hhdmOffset

/-- The region that fits, if the search ends, is a record. -/
theorem vmaSearch_mem (closed : ClosedUnderNext hhdmOffset memory records) (rootIn : root ∈ records)
    {fuel : Nat} (start : record ∈ records) {region : U64}
    (found : vmaSearch memory (root.pointer hhdmOffset) size fuel (record.pointer hhdmOffset) =
      some region) :
    ∃ fitting ∈ records, region = fitting.pointer hhdmOffset := by
  induction fuel generalizing record with
  | zero => cases found
  | succ fuel inductionHypothesis =>
      rw [vmaSearch] at found
      split_ifs at found
      · exact ⟨root, rootIn, (Option.some.inj found).symm⟩
      · exact ⟨record, start, (Option.some.inj found).symm⟩
      · obtain ⟨other, otherIn, leads⟩ := closed record start
        rw [leads] at found
        exact inductionHypothesis otherIn found

theorem vmaLastRegion_mem (closed : ClosedUnderNext hhdmOffset memory records) {fuel : Nat}
    (start : record ∈ records) {region : U64}
    (found : vmaLastRegion memory fuel (record.pointer hhdmOffset) = some region) :
    ∃ last ∈ records, region = last.pointer hhdmOffset := by
  induction fuel generalizing record with
  | zero => cases found
  | succ fuel inductionHypothesis =>
      rw [vmaLastRegion] at found
      split_ifs at found
      · exact ⟨record, start, (Option.some.inj found).symm⟩
      · obtain ⟨other, otherIn, leads⟩ := closed record start
        rw [leads] at found
        exact inductionHypothesis otherIn found

theorem ClosedUnderNext.congr (closed : ClosedUnderNext hhdmOffset memory records)
    (same : ∀ record ∈ records, ∀ address, record.Holds hhdmOffset address →
      after address = memory address) : ClosedUnderNext hhdmOffset after records := by
  intro record membership
  have kept := @Frame.load64_congr hhdmOffset 24#64 _ _ _ (same record membership) (by decide)
  obtain ⟨other, otherIn, leads⟩ := closed record membership
  exact ⟨other, otherIn, kept.trans leads⟩

/-- A record that is linked behind another one belongs to the list. -/
theorem ClosedUnderNext.link (closed : ClosedUnderNext hhdmOffset memory records)
    (null : ∃ last ∈ records, last.pointer hhdmOffset = 0#64) (previousIn : previous ∈ records)
    (linked : RegionLinked hhdmOffset memory record previous size flags after) :
    ClosedUnderNext hhdmOffset after (insert record records) := by
  intro other membership
  by_cases isPrevious : other = previous
  · rw [isPrevious]
    exact ⟨record, Set.mem_insert _ _, linked.link⟩
  · by_cases isRecord : other = record
    · rw [isRecord] at isPrevious ⊢
      rcases linked.next isPrevious with nowhere | follows
      · obtain ⟨last, lastIn, isNull⟩ := null
        exact ⟨last, Set.mem_insert_of_mem _ lastIn, nowhere.trans isNull.symm⟩
      · obtain ⟨next, nextIn, leads⟩ := closed previous previousIn
        exact ⟨next, Set.mem_insert_of_mem _ nextIn, follows.trans leads⟩
    · have same : ∀ address, other.Holds hhdmOffset address → after address = memory address := by
        intro address inOther
        apply linked.outside
        · exact fun inRecord => isRecord (inOther.unique inRecord)
        · exact fun inPrevious => isPrevious (inOther.unique inPrevious)
      have kept := @Frame.load64_congr hhdmOffset 24#64 _ _ _ same (by decide)
      obtain ⟨next, nextIn, leads⟩ := closed other (membership.resolve_left isRecord)
      exact ⟨next, Set.mem_insert_of_mem _ nextIn, kept.trans leads⟩

end Nekonix
