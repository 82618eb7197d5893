import Nekonix.Mm.Vmm.KernelTables
import Nekonix.Proc.Scheduler

/-!
# Frames in private use

The frames of the processes are neither free, nor tables of the kernel, nor the
heap's.  Whatever takes its frames from the free stack, or is the heap's own
business, leaves them alone.
-/

namespace Nekonix

open FlatMemory RadixTable Transition

variable {Heap : Type} {hhdmOffset : U64} {kernel : Frame} {held : Heap → Set Frame}

/-- The free stack and the kernel's tables are in order, and no frame that the heap
holds is free. -/
structure Sound (hhdmOffset : U64) (kernel : Frame) (held : Heap → Set Frame)
    (state : Heap × Machine) : Prop where
  usable : state.2.stack.Usable
  space : AddressSpace hhdmOffset state.2 kernel Set.univ
  heap : ∀ frame ∈ held state.1, frame.address ∉ state.2.free

/-- The frame is in use, and not by the kernel's tables or the heap. -/
structure Private (hhdmOffset : U64) (kernel : Frame) (held : Heap → Set Frame)
    (state : Heap × Machine) (frame : Frame) : Prop where
  inUse : InUse hhdmOffset kernel state.2 frame
  notHeap : frame ∉ held state.1

/-- The step keeps things in order, gives back only frames of the heap, and keeps
every private frame and every present top-level entry of the kernel as it is. -/
structure Careful (hhdmOffset : U64) (kernel : Frame) (held : Heap → Set Frame)
    (before after : Heap × Machine) : Prop where
  sound : Sound hhdmOffset kernel held after
  notFreed : ∀ frame : Frame, frame.address ∉ before.2.free → frame ∉ held before.1 →
    frame.address ∉ after.2.free ∧ frame ∉ held after.1
  kept : ∀ frame, Private hhdmOffset kernel held before frame →
    Private hhdmOffset kernel held after frame ∧
      SameFrame hhdmOffset before.2.memory after.2.memory frame
  topLevel : ∀ index, pageFormat.present (tables hhdmOffset before.2.memory kernel index) = true →
    tables hhdmOffset after.2.memory kernel index = tables hhdmOffset before.2.memory kernel index

theorem Careful.refl {state : Heap × Machine} (sound : Sound hhdmOffset kernel held state) :
    Careful hhdmOffset kernel held state state :=
  ⟨sound, fun _ notFree notHeap => ⟨notFree, notHeap⟩, fun _ frame => ⟨frame, fun _ _ => rfl⟩,
    fun _ _ => rfl⟩

theorem Careful.trans {before middle after : Heap × Machine}
    (first : Careful hhdmOffset kernel held before middle)
    (second : Careful hhdmOffset kernel held middle after) :
    Careful hhdmOffset kernel held before after := by
  refine ⟨second.sound, ?_, ?_, ?_⟩
  · intro frame notFree notHeap
    obtain ⟨middleFree, middleHeap⟩ := first.notFreed frame notFree notHeap
    exact second.notFreed frame middleFree middleHeap
  · intro frame wasPrivate
    obtain ⟨between, firstSame⟩ := first.kept frame wasPrivate
    obtain ⟨still, secondSame⟩ := second.kept frame between
    refine ⟨still, ?_⟩
    intro address inFrame
    rw [secondSame address inFrame, firstSame address inFrame]
  · intro index present
    have early := first.topLevel index present
    rw [second.topLevel index (by rw [early]; exact present), early]

/-- The file system and the heap keep the private frames of others as they are. -/
structure Files.Respects (files : Files Heap) (hhdmOffset : U64) (kernel : Frame)
    (held : Heap → Set Frame) : Prop where
  openFile : ∀ state path, Sound hhdmOffset kernel held state →
    Careful hhdmOffset kernel held state (files.openFile state path).2
  kmalloc : ∀ state size, Sound hhdmOffset kernel held state →
    Careful hhdmOffset kernel held state (files.kmalloc state size).2
  read : ∀ state file buffer size, Sound hhdmOffset kernel held state →
    Careful hhdmOffset kernel held state (files.read state file buffer size)
  close : ∀ state file, Sound hhdmOffset kernel held state →
    Careful hhdmOffset kernel held state (files.close state file)

theorem Files.Respects.fetchFile {files : Files Heap}
    (respects : files.Respects hhdmOffset kernel held) {state : Heap × Machine} (path : U64)
    (sound : Sound hhdmOffset kernel held state) :
    Careful hhdmOffset kernel held state (fetchFile files state path).2 := by
  have opened := respects.openFile state path sound
  unfold Nekonix.fetchFile
  dsimp only
  split_ifs
  · exact opened
  · exact opened
  · have allocated := respects.kmalloc _ (files.vnodeSize (files.openFile state path).2
      (files.openFile state path).1) opened.sound
    exact (opened.trans allocated).trans (respects.read _ _ _ _ allocated.sound)

namespace TakesFrames

variable {taken : List Frame} {before after : Machine} {heap : Heap}

/-- Taking frames is careful, and the frames taken become private. -/
theorem careful (takes : TakesFrames hhdmOffset taken before after)
    (sound : Sound hhdmOffset kernel held (heap, before)) :
    Careful hhdmOffset kernel held (heap, before) (heap, after) ∧
      ∀ frame ∈ taken, Private hhdmOffset kernel held (heap, after) frame := by
  have same := takes.sameTables sound.space
  have space : AddressSpace hhdmOffset after kernel Set.univ :=
    same.space sound.space fun page free => takes.still_free free
  refine ⟨⟨⟨takes.usable sound.usable, space, ?_⟩, ?_, ?_, ?_⟩, ?_⟩
  · exact fun frame inHeap free => sound.heap frame inHeap (takes.still_free free)
  · exact fun frame notFree notHeap => ⟨fun free => notFree (takes.still_free free), notHeap⟩
  · intro frame wasPrivate
    refine ⟨⟨⟨?_, ?_⟩, wasPrivate.notHeap⟩, ?_⟩
    · exact fun free => wasPrivate.inUse.notFree (takes.still_free free)
    · intro path membership reached
      rw [same.follow membership] at reached
      exact wasPrivate.inUse.notTable path membership reached
    · intro address inFrame
      apply takes.outside
      intro other inTaken inOther
      apply wasPrivate.inUse.notFree
      rw [inFrame.unique inOther]
      exact takes.taken_free inTaken
  · intro index _
    rw [same.tables_eq nil_mem_within rfl]
  · intro frame membership
    refine ⟨⟨takes.taken_notFree sound.usable membership, ?_⟩, ?_⟩
    · intro path pathIn reached
      rw [same.follow pathIn] at reached
      exact sound.space.apart path pathIn frame reached (takes.taken_free membership)
    · exact fun inHeap => sound.heap frame inHeap (takes.taken_free membership)

end TakesFrames

/-- Mappings in a fresh pagemap are careful. -/
theorem NewPagemap.careful {before machine finish : Machine} {pagemap : Frame} {heap : Heap}
    {mappings : List Mapping} (made : NewPagemap hhdmOffset kernel before pagemap machine)
    (sound : Sound hhdmOffset kernel held (heap, before))
    (run : MapRun hhdmOffset pagemap Set.univ machine mappings finish) :
    Careful hhdmOffset kernel held (heap, before) (heap, finish) := by
  have stillFree : ∀ page ∈ finish.free, page ∈ before.free := by
    intro page free
    rw [made.free, run.free]
    exact List.mem_append_left _ (List.mem_append_left _ free)
  refine ⟨⟨run.usable made.usable, made.kernelSpace_finish sound.usable sound.space run, ?_⟩,
    ?_, ?_, ?_⟩
  · exact fun frame inHeap free => sound.heap frame inHeap (stillFree _ free)
  · exact fun frame notFree notHeap => ⟨fun free => notFree (stillFree _ free), notHeap⟩
  · intro frame wasPrivate
    obtain ⟨inUse, same⟩ := made.inUse_finish sound.space run wasPrivate.inUse
    exact ⟨⟨inUse, wasPrivate.notHeap⟩, same⟩
  · intro index _
    rw [(made.lowerTables sound.space run).tables_eq nil_mem_within rfl]

end Nekonix
