import Nekonix.Library.LinkedList
import Nekonix.Mm.Vma.Context
import Nekonix.Mm.Vmm.Drawn
import Nekonix.Mm.Vmm.Unmapping

/-!
# Contexts in order

The records of a context form a list that ends in `NULL`, each in a frame of its own.
Frames that are taken or given back elsewhere leave it in order, and so does a new
link.
-/

namespace Nekonix

open FlatMemory RadixTable LinkedList

variable {hhdmOffset size flags : U64} {pool : List U64} {kernel ctx record frame : Frame}
  {records front back : List Frame} {machine before middle after next : Machine}
  {memory other : Memory}

/-- The records of a context, from `ctx->root` to `NULL`. -/
def RegionList (memory : Memory) (ctx : U64) (regions : List U64) : Prop :=
  Segment (nextRegion memory) 0#64 (Memory.load64 memory (contextRoot ctx)) regions

/-- The context and its records lie in frames in use that came from the free stack, and
the records form a list. -/
structure SoundContext (hhdmOffset : U64) (pool : List U64) (kernel ctx : Frame)
    (records : List Frame) (machine : Machine) : Prop where
  usable : machine.stack.Usable
  space : AddressSpace hhdmOffset machine kernel Set.univ
  nonnull : 0#64 ∉ pool
  pooled : ∀ page ∈ machine.free, page ∈ pool
  room : pool.length ≤ machine.stack.max.toNat
  inUse : ∀ frame ∈ ctx :: records, InUse hhdmOffset kernel machine frame
  fromPool : ∀ frame ∈ ctx :: records, frame.address ∈ pool
  notRecord : ctx ∉ records
  pagemap : Memory.load64 machine.memory (contextPagemap (ctx.pointer hhdmOffset)) =
    kernel.pointer hhdmOffset
  list : RegionList machine.memory (ctx.pointer hhdmOffset)
    (records.map (Frame.pointer hhdmOffset))

theorem Frame.pointer_inj {frame other : Frame} :
    frame.pointer hhdmOffset = other.pointer hhdmOffset ↔ frame = other :=
  higherHalf_inj.trans Frame.address_inj

theorem Frame.physical_pointer {frame : Frame} :
    physical hhdmOffset (frame.pointer hhdmOffset) = frame.address :=
  physical_higherHalf _ _

theorem Frame.pointer_mem {frame : Frame} :
    frame.pointer hhdmOffset ∈ records.map (Frame.pointer hhdmOffset) ↔ frame ∈ records :=
  List.mem_map_of_injective fun _ _ => Frame.pointer_inj.mp

/-- A record keeps its `next` where its frame keeps its bytes. -/
theorem SameFrame.nextRegion (same : SameFrame hhdmOffset memory other record) :
    nextRegion other (record.pointer hhdmOffset) =
      Nekonix.nextRegion memory (record.pointer hhdmOffset) :=
  Frame.load64_congr same (by decide)

theorem SameFrame.contextRoot (same : SameFrame hhdmOffset memory other ctx) :
    Memory.load64 other (contextRoot (ctx.pointer hhdmOffset)) =
      Memory.load64 memory (Nekonix.contextRoot (ctx.pointer hhdmOffset)) :=
  Frame.load64_congr same (by decide)

theorem RegionList.congr
    (list : RegionList memory (ctx.pointer hhdmOffset) (records.map (Frame.pointer hhdmOffset)))
    (same : ∀ frame ∈ ctx :: records, SameFrame hhdmOffset memory other frame) :
    RegionList other (ctx.pointer hhdmOffset) (records.map (Frame.pointer hhdmOffset)) := by
  unfold RegionList at *
  rw [(same ctx List.mem_cons_self).contextRoot]
  refine list.congr ?_
  intro cell membership
  obtain ⟨record, listed, rfl⟩ := List.mem_map.mp membership
  exact (same record (List.mem_cons_of_mem _ listed)).nextRegion

/-- A new record behind one of the list. -/
theorem RegionList.insert {previous : Frame}
    (list : RegionList memory (ctx.pointer hhdmOffset)
      ((front ++ previous :: back).map (Frame.pointer hhdmOffset)))
    (nonnull : record.pointer hhdmOffset ≠ 0#64)
    (leads : nextRegion other (record.pointer hhdmOffset) =
      nextRegion memory (previous.pointer hhdmOffset))
    (relinked : nextRegion other (previous.pointer hhdmOffset) = record.pointer hhdmOffset)
    (same : ∀ frame ∈ ctx :: (front ++ back), SameFrame hhdmOffset memory other frame) :
    RegionList other (ctx.pointer hhdmOffset)
      ((front ++ previous :: record :: back).map (Frame.pointer hhdmOffset)) := by
  unfold RegionList at list ⊢
  rw [List.map_append, List.map_cons] at list
  rw [(same ctx List.mem_cons_self).contextRoot, List.map_append, List.map_cons, List.map_cons]
  refine list.insert nonnull leads relinked ?_
  intro cell membership
  rw [← List.map_append] at membership
  obtain ⟨listed, listedIn, rfl⟩ := List.mem_map.mp membership
  exact (same listed (List.mem_cons_of_mem _ listedIn)).nextRegion

namespace SoundContext

theorem nodup (sound : SoundContext hhdmOffset pool kernel ctx records machine) :
    (ctx :: records).Nodup :=
  List.nodup_cons.mpr ⟨sound.notRecord, sound.list.nodup.of_map⟩

theorem nonzero (sound : SoundContext hhdmOffset pool kernel ctx records machine)
    (membership : frame ∈ ctx :: records) : frame.address ≠ 0#64 := by
  intro null
  exact sound.nonnull (null ▸ sound.fromPool frame membership)

theorem unique (sound : SoundContext hhdmOffset pool kernel ctx records machine)
    {others : List Frame} (list : RegionList machine.memory (ctx.pointer hhdmOffset)
      (others.map (Frame.pointer hhdmOffset))) : others = records :=
  List.map_injective_iff.mpr (fun _ _ => Frame.pointer_inj.mp) (list.unique sound.list)

/-- Nothing of the context is written. -/
theorem keep (sound : SoundContext hhdmOffset pool kernel ctx records machine)
    (usable : next.stack.Usable) (space : AddressSpace hhdmOffset next kernel Set.univ)
    (pooled : ∀ page ∈ next.free, page ∈ pool) (max : next.stack.max = machine.stack.max)
    (inUse : ∀ frame ∈ ctx :: records, InUse hhdmOffset kernel next frame)
    (same : ∀ frame ∈ ctx :: records, SameFrame hhdmOffset machine.memory next.memory frame) :
    SoundContext hhdmOffset pool kernel ctx records next where
  usable := usable
  space := space
  nonnull := sound.nonnull
  pooled := pooled
  room := max ▸ sound.room
  inUse := inUse
  fromPool := sound.fromPool
  notRecord := sound.notRecord
  pagemap := by
    have kept := Frame.load64_start_congr (same ctx List.mem_cons_self)
    exact kept.trans sound.pagemap
  list := sound.list.congr same

theorem advance (sound : SoundContext hhdmOffset pool kernel ctx records before)
    (advances : Advances hhdmOffset kernel ∅ before after) (drawn : Drawn before after) :
    SoundContext hhdmOffset pool kernel ctx records after := by
  refine sound.keep advances.usable advances.space
    (fun page free => sound.pooled page (drawn.mem free)) drawn.max ?_ ?_
  · exact fun frame membership => advances.inUse frame (sound.inUse frame membership)
  · exact fun frame membership =>
      advances.same frame (Set.notMem_empty _) (sound.inUse frame membership)

/-- Pages of the pool that are not free find their place on the stack. -/
theorem room_for (sound : SoundContext hhdmOffset pool kernel ctx records machine)
    {pages : List U64} (distinct : pages.Nodup) (inPool : ∀ page ∈ pages, page ∈ pool)
    (notFree : ∀ page ∈ pages, page ∉ machine.free) :
    machine.free.length + pages.length ≤ machine.stack.max.toNat := by
  have together : (machine.free ++ pages).Nodup := by
    refine List.nodup_append.mpr ⟨sound.usable.nodup, distinct, ?_⟩
    rintro page free _ membership rfl
    exact notFree page membership free
  have within : machine.free ++ pages ⊆ pool := List.append_subset.mpr ⟨sound.pooled, inPool⟩
  have count := (together.subperm within).length_le
  rw [List.length_append] at count
  exact count.trans sound.room

/-- A frame that is neither the context's nor a record's goes back to the stack. -/
theorem give (sound : SoundContext hhdmOffset pool kernel ctx records machine)
    (inPool : frame.address ∈ pool) (inUse : InUse hhdmOffset kernel machine frame)
    (other : frame ∉ ctx :: records) :
    (pmmFreePage machine frame.address).free = machine.free ++ [frame.address] ∧
      SoundContext hhdmOffset pool kernel ctx records (pmmFreePage machine frame.address) := by
  have nonzero : frame.address ≠ 0#64 := fun null => sound.nonnull (null ▸ inPool)
  have room := sound.room_for (List.nodup_singleton frame.address)
    (by simpa using inPool) (by simpa using inUse.notFree)
  rw [Machine.free, PmmStack.length_frames, List.length_singleton] at room
  have free := pmmFreePage_free nonzero (BitVec.lt_def.mpr room)
  have memory := pmmFreePage_memory machine frame.address
  have isFrame : frame ≠ 0#40 := by
    rintro rfl
    exact nonzero (by decide)
  have stillUsed : ∀ used : Frame, used ≠ frame → InUse hhdmOffset kernel machine used →
      InUse hhdmOffset kernel (pmmFreePage machine frame.address) used := by
    intro used different wasInUse
    refine ⟨?_, by rw [memory]; exact wasInUse.notTable⟩
    rw [free, List.mem_append, List.mem_singleton, not_or]
    exact ⟨wasInUse.notFree, fun same => different (Frame.address_inj.mp same)⟩
  refine ⟨free, sound.keep ⟨?_, ?_⟩ ⟨?_, ?_⟩ ?_ (pmmFreePage_max _ _) ?_ ?_⟩
  · change ∀ page ∈ (pmmFreePage machine frame.address).free, _
    rw [free]
    intro page membership
    rcases List.mem_append.mp membership with early | here
    · exact sound.usable.frame page early
    · exact ⟨frame, isFrame, List.mem_singleton.mp here⟩
  · change (pmmFreePage machine frame.address).free.Nodup
    rw [free]
    exact List.nodup_append_comm.mp (List.nodup_cons.mpr ⟨inUse.notFree, sound.usable.nodup⟩)
  · rw [memory]
    exact sound.space.tree
  · rw [memory, free]
    intro path membership table reached isFree
    rcases List.mem_append.mp isFree with early | here
    · exact sound.space.apart path membership table reached early
    · rw [Frame.address_inj.mp (List.mem_singleton.mp here)] at reached
      exact inUse.notTable path membership reached
  · rw [free]
    intro page membership
    rcases List.mem_append.mp membership with early | here
    · exact sound.pooled page early
    · rw [List.mem_singleton.mp here]
      exact inPool
  · intro used membership
    exact stillUsed used (fun same => other (same ▸ membership)) (sound.inUse used membership)
  · rw [memory]
    exact fun _ _ _ _ => rfl

/-- Unmapping a page. -/
theorem unmap (sound : SoundContext hhdmOffset pool kernel ctx records machine) (virt : U64) :
    SoundContext hhdmOffset pool kernel ctx records
      (vmmUnmap hhdmOffset machine (kernel.pointer hhdmOffset) virt) ∧
    ∀ frame, InUse hhdmOffset kernel machine frame →
      SameFrame hhdmOffset machine.memory
        (vmmUnmap hhdmOffset machine (kernel.pointer hhdmOffset) virt).memory frame := by
  have unmapped := vmmUnmap_spec sound.space (Set.mem_univ (slot4 virt))
  generalize vmmUnmap hhdmOffset machine (kernel.pointer hhdmOffset) virt = next at unmapped
  have free : next.free = machine.free := congrArg PmmStack.frames unmapped.stack
  have same : ∀ frame, InUse hhdmOffset kernel machine frame →
      SameFrame hhdmOffset machine.memory next.memory frame := by
    intro frame inUse address inFrame
    apply unmapped.outside
    intro path table onPath reached inTable
    rw [inTable.unique inFrame] at reached
    exact inUse.notTable path (mem_within_onPath (Set.mem_univ _) onPath) reached
  refine ⟨sound.keep ?_ unmapped.space ?_ ?_ ?_ ?_, same⟩
  · rw [unmapped.stack]
    exact sound.usable
  · rw [free]
    exact sound.pooled
  · rw [unmapped.stack]
  · intro frame membership
    have inUse := sound.inUse frame membership
    refine ⟨by rw [free]; exact inUse.notFree, ?_⟩
    intro path pathIn reached
    rw [unmapped.follow path pathIn] at reached
    exact inUse.notTable path pathIn reached
  · exact fun frame membership => same frame (sound.inUse frame membership)

/-- Frames in use are written, and the list is another one of such frames. -/
theorem relist {written : Set Frame} {listed : List Frame} {memory : Memory}
    (sound : SoundContext hhdmOffset pool kernel ctx records machine)
    (writes : Advances hhdmOffset kernel written machine { machine with memory })
    (frames : ∀ frame ∈ ctx :: listed, frame ∈ ctx :: records ∨
      InUse hhdmOffset kernel machine frame ∧ frame.address ∈ pool)
    (notRecord : ctx ∉ listed)
    (pagemap : Memory.load64 memory (contextPagemap (ctx.pointer hhdmOffset)) =
      Memory.load64 machine.memory (contextPagemap (ctx.pointer hhdmOffset)))
    (list : RegionList memory (ctx.pointer hhdmOffset) (listed.map (Frame.pointer hhdmOffset))) :
    SoundContext hhdmOffset pool kernel ctx listed { machine with memory } where
  usable := sound.usable
  space := writes.space
  nonnull := sound.nonnull
  pooled := sound.pooled
  room := sound.room
  inUse := by
    intro frame membership
    rcases frames frame membership with old | ⟨inUse, -⟩
    · exact writes.inUse frame (sound.inUse frame old)
    · exact writes.inUse frame inUse
  fromPool := by
    intro frame membership
    rcases frames frame membership with old | ⟨-, inPool⟩
    · exact sound.fromPool frame old
    · exact inPool
  notRecord := notRecord
  pagemap := pagemap.trans sound.pagemap
  list := list

/-- A record that is in use is linked behind one of the list. -/
theorem link {previous : Frame} {memory : Memory}
    (sound : SoundContext hhdmOffset pool kernel ctx (front ++ previous :: back) machine)
    (fresh : record ∉ ctx :: (front ++ previous :: back))
    (inUse : InUse hhdmOffset kernel machine record) (inPool : record.address ∈ pool)
    (nonnull : record.pointer hhdmOffset ≠ 0#64)
    (outside : ∀ address, ¬record.Holds hhdmOffset address → ¬previous.Holds hhdmOffset address →
      memory address = machine.memory address)
    (relinked : nextRegion memory (previous.pointer hhdmOffset) = record.pointer hhdmOffset)
    (leads : nextRegion memory (record.pointer hhdmOffset) =
      nextRegion machine.memory (previous.pointer hhdmOffset)) :
    SoundContext hhdmOffset pool kernel ctx (front ++ previous :: record :: back)
      { machine with memory } := by
  have writes : Advances hhdmOffset kernel {record, previous} machine { machine with memory } := by
    refine .of_write sound.usable sound.space ?_ ?_
    · rintro frame (rfl | rfl)
      · exact inUse
      · exact sound.inUse frame (by simp)
    · exact fun address off => outside address (off record (Or.inl rfl)) (off previous (Or.inr rfl))
  have same : ∀ frame ∈ ctx :: (front ++ back), SameFrame hhdmOffset machine.memory memory frame := by
    intro frame membership
    have listed : frame ∈ ctx :: (front ++ previous :: back) := by
      simp only [List.mem_cons, List.mem_append] at membership ⊢
      tauto
    refine writes.same frame ?_ (sound.inUse frame listed)
    rintro (rfl | rfl)
    · exact fresh listed
    · have nodup := sound.nodup
      rw [← List.cons_append, List.nodup_middle, List.nodup_cons] at nodup
      exact nodup.1 membership
  refine sound.relist writes ?_ ?_ (Frame.load64_start_congr (same ctx List.mem_cons_self))
    (sound.list.insert nonnull leads relinked same)
  · intro frame membership
    by_cases isRecord : frame = record
    · exact Or.inr (isRecord ▸ ⟨inUse, inPool⟩)
    · left
      simp only [List.mem_cons, List.mem_append] at membership ⊢
      tauto
  · intro listed
    have notRecord := sound.notRecord
    simp only [List.mem_cons, List.mem_append] at listed notRecord fresh
    tauto

/-- One frame of the context is written, and its list may lose records. -/
theorem rewrite {fewer : List Frame} {memory : Memory}
    (sound : SoundContext hhdmOffset pool kernel ctx records machine) (subset : fewer ⊆ records)
    (written : frame ∈ ctx :: records)
    (outside : ∀ address, ¬frame.Holds hhdmOffset address →
      memory address = machine.memory address)
    (pagemap : Memory.load64 memory (contextPagemap (ctx.pointer hhdmOffset)) =
      Memory.load64 machine.memory (contextPagemap (ctx.pointer hhdmOffset)))
    (list : RegionList memory (ctx.pointer hhdmOffset) (fewer.map (Frame.pointer hhdmOffset))) :
    SoundContext hhdmOffset pool kernel ctx fewer { machine with memory } ∧
      ∀ frame, InUse hhdmOffset kernel machine frame →
        InUse hhdmOffset kernel { machine with memory } frame := by
  have writes : Advances hhdmOffset kernel {frame} machine { machine with memory } := by
    refine .of_write sound.usable sound.space ?_ ?_
    · rintro _ rfl
      exact sound.inUse _ written
    · exact fun address off => outside address (off frame rfl)
  refine ⟨sound.relist writes ?_ ?_ pagemap list, writes.inUse⟩
  · exact fun frame membership => Or.inl ((List.cons_subset_cons ctx subset) membership)
  · exact fun listed => sound.notRecord (subset listed)

end SoundContext

end Nekonix
