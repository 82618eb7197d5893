import Mathlib.Data.Finset.Card
import Nekonix.Mm.Vmm.Cleared
import Nekonix.Mm.Vmm.MapRun

/-!
# The frames that mappings take

Mappings on a cleared table take a frame for each table that one of their walks goes
through, no matter in which order they are made.  With as many free frames they all
go through.
-/

namespace Nekonix

open FlatMemory RadixTable Transition

variable {hhdmOffset : U64} {root : Frame} {start finish : Machine} {mappings : List Mapping}

/-- The tables below the top level that the walk of an address goes through. -/
def walkTables (virt : U64) : List (List Slot) :=
  [[slot4 virt], [slot4 virt, slot3 virt], [slot4 virt, slot3 virt, slot2 virt]]

/-- The tables below the top level that mappings go through. -/
def tablesOf (calls : List MapCall) : Finset (List Slot) :=
  (calls.flatMap fun call => walkTables call.virt).toFinset

theorem mem_walkTables {virt : U64} {path : List Slot} :
    path ∈ walkTables virt ↔ path ≠ [] ∧ path <+: tablePath virt := by
  constructor
  · intro membership
    simp only [walkTables, List.mem_cons, List.not_mem_nil, or_false] at membership
    rcases membership with rfl | rfl | rfl <;> simp [tablePath]
  · rintro ⟨nonempty, onPath⟩
    have short : path.length ≤ 3 := onPath.length_le
    have isTake := List.prefix_iff_eq_take.mp onPath
    generalize path.length = length at short isTake
    rcases length with _ | _ | _ | _ | length
    · exact absurd isTake nonempty
    · exact List.mem_cons.mpr (Or.inl isTake)
    · exact List.mem_cons_of_mem _ (List.mem_cons.mpr (Or.inl isTake))
    · exact List.mem_cons_of_mem _ (List.mem_cons_of_mem _ (List.mem_singleton.mpr isTake))
    · omega

theorem nodup_walkTables (virt : U64) : (walkTables virt).Nodup := by
  simp [walkTables]

theorem mem_tablesOf {calls : List MapCall} {path : List Slot} :
    path ∈ tablesOf calls ↔ ∃ call ∈ calls, path ∈ walkTables call.virt := by
  simp [tablesOf]

theorem tablesOf_snoc (calls : List MapCall) (call : MapCall) :
    tablesOf (calls ++ [call]) = (walkTables call.virt).toFinset ∪ tablesOf calls := by
  ext path
  simp [tablesOf, or_comm]

theorem card_tablesOf_le (calls : List MapCall) : (tablesOf calls).card ≤ 3 * calls.length := by
  refine Nat.le_trans (List.toFinset_card_le _) (Nat.le_of_eq ?_)
  simp [List.length_flatMap, walkTables, Nat.mul_comm]

/-- A call needs a frame for each table of its walk that is not there yet. -/
theorem missingTables_eq_countP (memory : Memory) (virt : U64) :
    missingTables hhdmOffset memory (root.pointer hhdmOffset) virt =
      (walkTables virt).countP fun path =>
        (follow pageFormat (tables hhdmOffset memory) root path).isNone := by
  have path : tablePath virt = (([] ++ [slot4 virt]) ++ [slot3 virt]) ++ [slot2 virt] := rfl
  rw [missingTables_eq, path, missing_snoc, missing_snoc, missing_snoc]
  simp only [walkTables, List.countP_cons, List.countP_nil, Option.isNone_iff_eq_none, missing,
    List.nil_append, List.cons_append]
  ac_rfl

namespace MapRun

/-- From a cleared table on exactly the tables of the mappings are there. -/
theorem follow_eq_none_iff (run : MapRun hhdmOffset root Set.univ start mappings finish)
    (cleared : ∀ index, tables hhdmOffset start.memory root index = 0#64) {path : List Slot}
    {virt : U64} (onWalk : path ∈ walkTables virt) :
    follow pageFormat (tables hhdmOffset finish.memory) root path = none ↔
      path ∉ tablesOf (mappings.map Mapping.call) := by
  obtain ⟨nonempty, onPath⟩ := mem_walkTables.mp onWalk
  have membership : path ∈ within Set.univ := mem_within_onPath (Set.mem_univ (slot4 virt)) onPath
  obtain ⟨upper, index, rfl⟩ := (List.eq_nil_or_concat path).resolve_left nonempty
  rw [List.concat_eq_append] at *
  have unlinked : linkEntry hhdmOffset start.memory root upper index = none := by
    rw [linkEntry, link_eq_none_iff, Option.eq_none_iff_forall_ne_some]
    intro table reached
    exact nonempty (reached_of_cleared (fun index _ => cleared index) membership reached).1
  have new := run.linkNew membership unlinked
  rw [← link_eq_none_iff, mem_tablesOf]
  cases first : firstAlong (mappings.map Mapping.call) (upper ++ [index]) with
  | none =>
      rw [first] at new
      refine iff_of_true new ?_
      rintro ⟨call, isCall, onItsWalk⟩
      have misses := List.find?_eq_none.mp first call isCall
      exact misses (decide_eq_true (mem_walkTables.mp onItsWalk).2)
  | some call =>
      rw [first] at new
      obtain ⟨link, linked, -⟩ := new
      have through : upper ++ [index] <+: tablePath call.virt := by
        simpa using List.find?_some first
      refine iff_of_false (fun absent => ?_) (not_not.mpr ?_)
      · rw [linkEntry, absent] at linked
        cases linked
      · exact ⟨call, List.mem_of_find?_eq_some first, mem_walkTables.mpr ⟨nonempty, through⟩⟩

/-- A further mapping needs frames for the tables that are not among those of the run. -/
theorem missingTables_eq (run : MapRun hhdmOffset root Set.univ start mappings finish)
    (cleared : ∀ index, tables hhdmOffset start.memory root index = 0#64) (virt : U64) :
    missingTables hhdmOffset finish.memory (root.pointer hhdmOffset) virt =
      ((walkTables virt).toFinset \ tablesOf (mappings.map Mapping.call)).card := by
  have absent : (walkTables virt).toFinset \ tablesOf (mappings.map Mapping.call) =
      ((walkTables virt).filter fun path =>
        (follow pageFormat (tables hhdmOffset finish.memory) root path).isNone).toFinset := by
    ext path
    simp only [Finset.mem_sdiff, List.mem_toFinset, List.mem_filter, Option.isNone_iff_eq_none]
    exact and_congr_right fun onWalk => (run.follow_eq_none_iff cleared onWalk).symm
  rw [absent, List.toFinset_card_of_nodup ((nodup_walkTables virt).filter _),
    missingTables_eq_countP, List.countP_eq_length_filter]

/-- With a frame for each table the mappings go through, and take no further one. -/
theorem of_supply (usable : start.stack.Usable)
    (cleared : ∀ index, tables hhdmOffset start.memory root index = 0#64)
    (notFree : root.address ∉ start.free) (calls : List MapCall)
    (valid : ∀ call ∈ calls, EntryFlags call.flags)
    (supply : (tablesOf calls).card ≤ start.free.length) :
    ∃ mappings, mappings.map Mapping.call = calls ∧
      MapRun hhdmOffset root Set.univ start mappings
        (calls.foldl (MapCall.apply hhdmOffset (root.pointer hhdmOffset)) start) ∧
      start.free.length = (calls.foldl (MapCall.apply hhdmOffset (root.pointer hhdmOffset))
        start).free.length + (tablesOf calls).card := by
  induction calls using List.reverseRecOn with
  | nil => exact ⟨[], rfl, .nil, rfl⟩
  | append_singleton calls call inductionHypothesis =>
      have more : (tablesOf (calls ++ [call])).card =
          ((walkTables call.virt).toFinset \ tablesOf calls).card + (tablesOf calls).card := by
        rw [tablesOf_snoc, Finset.card_sdiff_add_card]
      obtain ⟨mappings, rfl, run, taken⟩ :=
        inductionHypothesis (fun earlier isCall => valid earlier (List.mem_append_left _ isCall))
          (by omega)
      have space : AddressSpace hhdmOffset start root Set.univ :=
        .of_cleared (fun index _ => cleared index) notFree
      have needed := run.missingTables_eq cleared call.virt
      obtain ⟨created, count, mapped⟩ := vmmMap_spec call.virt call.phys (run.usable usable)
        (run.space space) (Set.mem_univ _) (valid call (by simp)) (by omega)
      rw [List.foldl_append, List.foldl_cons, List.foldl_nil]
      refine ⟨mappings ++ [⟨call, created⟩], by simp, run.snoc ⟨Set.mem_univ _, mapped⟩, ?_⟩
      have length := mapped.length_free
      rw [MapCall.apply]
      omega

end MapRun

end Nekonix
