import Nekonix.Mm.Vma.History

/-!
# What destroying a context gives back

`vma_destroy_context` walks the list and gives back each record, and then the context.  It
looks at no page of a region.
-/

namespace Nekonix

open LinkedList Transition

variable {hhdmOffset : U64} {pool : List U64} {kernel ctx : Frame} {records : List Frame}
  {booted start machine : Machine}

/-- The page belongs to a region that is live. -/
def LivePage (memory : Memory) (live : List U64) (virt : U64) : Prop :=
  ∃ region ∈ live, ∃ i < mappedPages (Memory.load64 memory (regionSize region)),
    virt = Memory.load64 memory (regionStart region) + i * pageSize

/-- The frame of a record of the list, of a page that a live region maps, or of the
context. -/
def Owed (hhdmOffset : U64) (machine : Machine) (ctx : U64) (live : List U64) (page : U64) : Prop :=
  (∃ regions, RegionList machine.memory ctx regions ∧
      ∃ region ∈ regions, page = physical hhdmOffset region) ∨
    (∃ virt, LivePage machine.memory live virt ∧ page ≠ 0#64 ∧
      page = virtToPhys hhdmOffset machine.memory
        (Memory.load64 machine.memory (contextPagemap ctx)) virt) ∨
    page = physical hhdmOffset ctx

/-- Each frame that is owed comes back once, and no page of a live region stays mapped. -/
structure ContextReturned (hhdmOffset : U64) (machine : Machine) (ctx : U64) (live : List U64)
    (after : Machine) : Prop where
  given : ∀ page, Owed hhdmOffset machine ctx live page →
    after.free.count page = machine.free.count page + 1
  unmapped : ∀ virt, LivePage machine.memory live virt →
    virtToPhys hhdmOffset after.memory (Memory.load64 machine.memory (contextPagemap ctx)) virt = 0#64

/-- Frames that the stack has room for go on top of it, in order. -/
theorem pmmFreePages_spec {pages : List U64} (nonzero : 0#64 ∉ pages)
    (room : machine.free.length + pages.length ≤ machine.stack.max.toNat) :
    (pages.foldl pmmFreePage machine).free = machine.free ++ pages ∧
      (pages.foldl pmmFreePage machine).memory = machine.memory := by
  induction pages generalizing machine with
  | nil => exact ⟨(List.append_nil _).symm, rfl⟩
  | cons page pages inductionHypothesis =>
      rw [List.mem_cons, not_or] at nonzero
      rw [List.length_cons] at room
      have below : machine.stack.idx < machine.stack.max := by
        rw [Machine.free, PmmStack.length_frames] at room
        rw [BitVec.lt_def]
        omega
      have isFree := pmmFreePage_free (Ne.symm nonzero.1) below
      obtain ⟨free, memory⟩ := @inductionHypothesis (pmmFreePage machine page) nonzero.2 (by
        rw [isFree, pmmFreePage_max, List.length_append, List.length_singleton]
        omega)
      rw [List.foldl_cons, free, memory, isFree, pmmFreePage_memory, List.append_assoc]
      exact ⟨rfl, rfl⟩

/-- The walk gives back the listed records. -/
theorem vmaDestroyRegions_spec {regions : List U64} {first : U64} {fuel : Nat}
    (list : Segment (nextRegion machine.memory) 0#64 first regions) (enough : regions.length < fuel) :
    vmaDestroyRegions hhdmOffset fuel machine first =
      some ((regions.map (physical hhdmOffset)).foldl pmmFreePage machine) := by
  induction regions generalizing machine first fuel with
  | nil =>
      obtain ⟨fuel, rfl⟩ := Nat.exists_eq_add_of_le' (Nat.one_le_of_lt enough)
      rw [list, vmaDestroyRegions, if_pos rfl]
      rfl
  | cons region rest inductionHypothesis =>
      obtain ⟨rfl, nonnull, further⟩ := list
      obtain ⟨fuel, rfl⟩ := Nat.exists_eq_add_of_le' (Nat.one_le_of_lt enough)
      rw [vmaDestroyRegions, if_neg nonnull]
      refine inductionHypothesis ?_ (Nat.lt_of_succ_lt_succ enough)
      rw [pmmFreePage_memory]
      exact further

namespace SoundContext

/-- The records and the context go on top of the stack, and memory stays as it is. -/
theorem destroy (sound : SoundContext hhdmOffset pool kernel ctx records machine) :
    ∃ after, vmaDestroyContext hhdmOffset machine (ctx.pointer hhdmOffset) = some after ∧
      after.free = machine.free ++ (records ++ [ctx]).map Frame.address ∧
      after.memory = machine.memory := by
  have walk := @vmaDestroyRegions_spec hhdmOffset machine _ _ (2 ^ 64) sound.list
    sound.list.length_lt_width
  have distinct : (records ++ [ctx]).Nodup := List.nodup_append_comm.mp sound.nodup
  have fromPool : ∀ frame ∈ records ++ [ctx], frame.address ∈ pool := by
    intro frame membership
    exact sound.fromPool frame (by simpa [or_comm] using membership)
  have notFree : ∀ frame ∈ records ++ [ctx], frame.address ∉ machine.free := by
    intro frame membership
    exact (sound.inUse frame (by simpa [or_comm] using membership)).notFree
  have nonzero : 0#64 ∉ (records ++ [ctx]).map Frame.address := by
    intro null
    obtain ⟨frame, membership, isNull⟩ := List.mem_map.mp null
    exact sound.nonnull (isNull ▸ fromPool frame membership)
  have room := sound.room_for (distinct.map fun _ _ => Frame.address_inj.mp)
    (List.forall_mem_map.mpr fromPool) (List.forall_mem_map.mpr notFree)
  obtain ⟨free, memory⟩ := pmmFreePages_spec nonzero room
  refine ⟨_, ?_, free, memory⟩
  have isAddress : (records.map (Frame.pointer hhdmOffset)).map (physical hhdmOffset) =
      records.map Frame.address := by
    rw [List.map_map]
    exact List.map_congr_left fun _ _ => Frame.physical_pointer
  unfold vmaDestroyContext
  dsimp only
  rw [walk, isAddress, Frame.physical_pointer, List.map_append, List.foldl_append]
  rfl

/-- All comes back exactly if no page of a live region is mapped. -/
theorem contextReturned_iff (sound : SoundContext hhdmOffset pool kernel ctx records machine)
    (live : List U64) :
    ∃ after, vmaDestroyContext hhdmOffset machine (ctx.pointer hhdmOffset) = some after ∧
      (ContextReturned hhdmOffset machine (ctx.pointer hhdmOffset) live after ↔
        ∀ virt, LivePage machine.memory live virt →
          virtToPhys hhdmOffset machine.memory
            (Memory.load64 machine.memory (contextPagemap (ctx.pointer hhdmOffset))) virt =
              0#64) := by
  obtain ⟨after, destroyed, free, memory⟩ := sound.destroy
  refine ⟨after, destroyed, ?_, ?_⟩
  · intro returned virt isLive
    have unmapped := returned.unmapped virt isLive
    rwa [memory] at unmapped
  · intro unmapped
    -- a frame of the records or the context is listed once
    have once : ∀ frame ∈ records ++ [ctx],
        after.free.count frame.address = machine.free.count frame.address + 1 := by
      intro frame membership
      have distinct : ((records ++ [ctx]).map Frame.address).Nodup :=
        (List.nodup_append_comm.mp sound.nodup : (records ++ [ctx]).Nodup).map
          fun _ _ => Frame.address_inj.mp
      rw [free, List.count_append,
        List.count_eq_one_of_mem distinct (List.mem_map_of_mem membership)]
    refine ⟨?_, ?_⟩
    · rintro page (⟨regions, list, region, listed, rfl⟩ | ⟨virt, isLive, mapped, rfl⟩ | rfl)
      · rw [list.unique sound.list] at listed
        obtain ⟨record, membership, rfl⟩ := List.mem_map.mp listed
        rw [Frame.physical_pointer]
        exact once record (List.mem_append_left _ membership)
      · exact absurd (unmapped virt isLive) mapped
      · rw [Frame.physical_pointer]
        exact once ctx (List.mem_append_right _ (List.mem_singleton_self _))
    · intro virt isLive
      rw [memory]
      exact unmapped virt isLive

end SoundContext

/-- The page of the one region is mapped. -/
theorem OneRegion.live_mapped {ctx root record : Frame} {start machine : Machine}
    (one : OneRegion ctx root record start machine) :
    LivePage machine.memory (liveRegions [.alloc 1#64 heapFlags (record.pointer 0#64)]) pageSize ∧
      virtToPhys 0#64 machine.memory
        (Memory.load64 machine.memory (contextPagemap (ctx.pointer 0#64))) pageSize ≠ 0#64 := by
  have nonnull : record.pointer 0#64 ≠ 0#64 := one.sound.list.ne_stop _ (by simp)
  have live : liveRegions [.alloc 1#64 heapFlags (record.pointer 0#64)] = [record.pointer 0#64] := by
    simp [liveRegions, nonnull]
  rw [live, one.sound.pagemap]
  refine ⟨⟨_, List.mem_singleton_self _, 0#64, ?_, ?_⟩, ?_⟩
  · rw [one.size]
    decide
  · rw [one.start]
    decide
  · obtain ⟨frame, nonzero, -, translates⟩ := one.held
    rw [translates]
    exact fun null => nonzero (Frame.address_inj.mp (null.trans (by decide)))

end Nekonix
