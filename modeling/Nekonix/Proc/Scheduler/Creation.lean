import Mathlib.Data.List.Nodup
import Nekonix.Proc.Elf.Loading
import Nekonix.Proc.Scheduler.Memory
import Nekonix.Proc.Scheduler.Records

/-!
# Creating a process

A creation that finds its frames takes them from the free stack, fills in a
fresh record and disturbs no private frame.
-/

namespace Nekonix

open FlatMemory RadixTable Transition

variable {Heap : Type} {hhdmOffset : U64} {kernel : Frame} {held : Heap → Set Frame}
  {system : System Heap} {entry pagemap name : U64}

theorem stackPointer_ne_zero {frame : Frame} (nonzero : frame ≠ 0#40)
    (mapped : frame.address.toNat + hhdmOffset.toNat + 4096 ≤ 2 ^ 64) :
    frame.pointer hhdmOffset + 4095#64 ≠ 0#64 := by
  have number := pointer_toNat mapped
  have nonnull := pointer_ne_zero nonzero mapped
  intro null
  bv_omega

/-- What a created process has in its record. -/
structure Created (hhdmOffset : U64) (record stack : Frame) (system next : System Heap)
    (pagemap name : U64) : Prop where
  pid : (readProcess next.machine.memory (record.pointer hhdmOffset)).pid = system.pidCounter
  state : (readProcess next.machine.memory (record.pointer hhdmOffset)).state =
    ProcessState.new.code
  pagemap : (readProcess next.machine.memory (record.pointer hhdmOffset)).pagemap = pagemap
  name : (readProcess next.machine.memory (record.pointer hhdmOffset)).name = name
  rsp : Memory.load64 next.machine.memory
    (intFrameRsp (processCtx (record.pointer hhdmOffset))) = stack.pointer hhdmOffset + 4095#64

/-- The bytes of a record once `process_create` has filled it in: `last` is the memory
after the request for the stack. -/
def filledRecord (last : Memory) (proc rsp pagemap name : U64) : Memory :=
  processRest (Memory.store64 last (intFrameRsp (processCtx proc)) rsp) proc pagemap name

theorem filledRecord_outside {last : Memory} {proc rsp address : U64}
    (outside : ¬InRange proc processSize address) :
    filledRecord last proc rsp pagemap name address = last address := by
  unfold filledRecord
  rw [processRest_outside fun inPart => outside (afterState_inRecord inPart), Memory.store64]
  apply store_outside
  intro inRsp
  apply outside
  unfold InRange intFrameRsp processCtx processSize at *
  bv_omega

theorem filledRecord_created {memory last : Memory} {record stack : Frame} {machine : Machine}
    (early : ∀ address, InRange (record.pointer hhdmOffset) 16 address → last address =
      processHead memory (record.pointer hhdmOffset) system.pidCounter entry address)
    (filled : machine.memory = filledRecord last (record.pointer hhdmOffset)
      (stack.pointer hhdmOffset + 4095#64) pagemap name) :
    Created hhdmOffset record stack system { system with machine } pagemap name := by
  have same : ∀ address, InRange (record.pointer hhdmOffset) 16 address →
      machine.memory address =
        processHead memory (record.pointer hhdmOffset) system.pidCounter entry address := by
    intro address inHead
    rw [filled, filledRecord, processRest_outside, Memory.store64, store_outside,
      early address inHead]
    · unfold InRange intFrameRsp processCtx at *
      bv_omega
    · unfold InRange processPagemap at *
      bv_omega
  obtain ⟨pid, state⟩ := processHead_fields memory (record.pointer hhdmOffset)
    system.pidCounter entry
  obtain ⟨samePid, sameState⟩ := pid_state_of_same same
  obtain ⟨isPagemap, isName⟩ := processRest_fields
    (Memory.store64 last (intFrameRsp (processCtx (record.pointer hhdmOffset)))
      (stack.pointer hhdmOffset + 4095#64)) (record.pointer hhdmOffset) pagemap name
  rw [filledRecord] at filled
  rw [← filled] at isPagemap isName
  refine ⟨samePid.trans pid, sameState.trans state, isPagemap, isName, ?_⟩
  dsimp only
  rw [filled]
  exact (processRest_rsp _ _ _ _).trans (Memory.load64_store64_same _ _ _)

/-- `process_create` where both checks pass. -/
theorem processCreate_eq {record stack : Frame} {machine last : Machine}
    (first : pmmRequestPage hhdmOffset system.machine = (record.address, machine))
    (recordNonnull : record.pointer hhdmOffset ≠ 0#64)
    (second : pmmRequestPage hhdmOffset
      { machine with
        memory := processHead machine.memory (record.pointer hhdmOffset) system.pidCounter entry } =
      (stack.address, last))
    (rspNonnull : stack.pointer hhdmOffset + 4095#64 ≠ 0#64) :
    processCreate hhdmOffset system entry pagemap name =
      (record.pointer hhdmOffset,
        { system with
          machine := { last with
            memory := filledRecord last.memory (record.pointer hhdmOffset)
              (stack.pointer hhdmOffset + 4095#64) pagemap name }
          pidCounter := system.pidCounter + 1#64 }) := by
  unfold Frame.pointer at *
  unfold processCreate filledRecord
  simp only [first, if_neg recordNonnull, second, Memory.load64_store64_same, if_neg rspNonnull]

/-- `process_create` with frames for the record and the stack. -/
theorem processCreate_spec (system : System Heap) (entry pagemap name : U64)
    (usable : system.machine.stack.Usable) (enough : 2 ≤ system.machine.free.length)
    (mapped : DirectlyMapped hhdmOffset system.machine) :
    ∃ record stack : Frame, ∃ next,
      processCreate hhdmOffset system entry pagemap name = (record.pointer hhdmOffset, next) ∧
      TakesFrames hhdmOffset [record, stack] system.machine next.machine ∧
      record.pointer hhdmOffset ≠ 0#64 ∧
      Created hhdmOffset record stack system next pagemap name ∧
      next = { system with machine := next.machine, pidCounter := system.pidCounter + 1#64 } := by
  obtain ⟨record, machine, first, nonzero, recordTakes⟩ := pmmRequestPage_takesFrame hhdmOffset
    usable (List.ne_nil_of_length_pos (by omega))
  have recordNonnull := pointer_ne_zero nonzero
    (mapped record (recordTakes.taken_free List.mem_cons_self))
  -- the record is filled in as far as its stack pointer
  have head := recordTakes.write
    (processHead machine.memory (record.pointer hhdmOffset) system.pidCounter entry) (by
      intro address outside
      apply processHead_outside
      intro inRecord
      exact outside record List.mem_cons_self (inRecord.mono (by decide)))
  have count := head.length_free
  rw [List.length_singleton] at count
  obtain ⟨stack, last, second, stackNonzero, stackTakes⟩ := pmmRequestPage_takesFrame hhdmOffset
    (head.usable usable) (List.ne_nil_of_length_pos (by omega))
  have takes := head.trans stackTakes
  have different : record ≠ stack := by
    rintro rfl
    exact head.taken_notFree usable List.mem_cons_self (stackTakes.taken_free List.mem_cons_self)
  have rspNonnull := stackPointer_ne_zero stackNonzero (mapped stack (takes.taken_free (by simp)))
  refine ⟨record, stack, _, processCreate_eq first recordNonnull second rspNonnull, ?_,
    recordNonnull, ?_, rfl⟩
  · apply takes.write
    intro address outside
    apply filledRecord_outside
    exact fun inRecord => outside record (by simp) (inRecord.mono (by decide))
  · have early : ∀ address, InRange (record.pointer hhdmOffset) 16 address → last.memory address =
        processHead machine.memory (record.pointer hhdmOffset) system.pidCounter entry address := by
      intro address inHead
      have inRecord : record.Holds hhdmOffset address := inHead.mono (by decide)
      apply stackTakes.outside
      intro frame isStack inStack
      rw [List.mem_singleton.mp isStack] at inStack
      exact different (inRecord.unique inStack)
    have filled : Machine.memory { last with
        memory := filledRecord last.memory (record.pointer hhdmOffset)
          (stack.pointer hhdmOffset + 4095#64) pagemap name } =
      filledRecord last.memory (record.pointer hhdmOffset) (stack.pointer hhdmOffset + 4095#64)
        pagemap name := rfl
    have created := filledRecord_created early filled
    exact ⟨created.pid, created.state, created.pagemap, created.name, created.rsp⟩

/-! Creation without a free frame: everything is put at page 0 -/

section Exhausted

variable {page : Frame}

theorem vmmNewPagemap_exhausted {kernelPagemap : U64} {machine : Machine}
    (null : page.address = 0#64) (empty : machine.free = [])
    (nonnull : page.pointer hhdmOffset ≠ 0#64) :
    ∃ memory, vmmNewPagemap hhdmOffset kernelPagemap machine =
        (page.pointer hhdmOffset, { machine with memory }) ∧
      ∀ address, ¬page.Holds hhdmOffset address → memory address = machine.memory address := by
  have upper : ∀ number ∈ List.range' 256 256, number < 512 := by
    intro number membership
    rw [List.mem_range'_1] at membership
    omega
  have isPage : higherHalf hhdmOffset 0#64 = page.pointer hhdmOffset := by
    rw [Frame.pointer, null]
  refine ⟨copyKernelEntries (memset machine.memory (page.pointer hhdmOffset) 0#8 4096)
    (page.pointer hhdmOffset) kernelPagemap, ?_, ?_⟩
  · simp only [vmmNewPagemap, pmmRequestPage_empty empty, isPage, if_neg nonnull]
  · intro address outside
    rw [copyKernelEntries, copyEntries_outside _ upper _ outside,
      memset_eq_fill _ _ _ (by decide)]
    exact fill_outside outside

theorem processCreate_exhausted (null : page.address = 0#64) (empty : system.machine.free = [])
    (nonnull : page.pointer hhdmOffset ≠ 0#64)
    (stackNonnull : page.pointer hhdmOffset + 4095#64 ≠ 0#64) :
    ∃ memory, processCreate hhdmOffset system entry pagemap name =
        (page.pointer hhdmOffset,
          { system with
            machine := { system.machine with memory }
            pidCounter := system.pidCounter + 1#64 }) ∧
      (readProcess memory (page.pointer hhdmOffset)).state = ProcessState.new.code ∧
      ∀ address, ¬page.Holds hhdmOffset address →
        memory address = system.machine.memory address := by
  have first : pmmRequestPage hhdmOffset system.machine = (page.address, system.machine) := by
    rw [pmmRequestPage_empty empty, null]
  have second : pmmRequestPage hhdmOffset
      { system.machine with
        memory := processHead system.machine.memory (page.pointer hhdmOffset) system.pidCounter
          entry } =
      (page.address,
        { system.machine with
          memory := processHead system.machine.memory (page.pointer hhdmOffset) system.pidCounter
            entry }) := by
    rw [pmmRequestPage_empty (by exact empty), null]
  have created := @processCreate_eq _ hhdmOffset system entry pagemap name page page _ _ first
    nonnull second stackNonnull
  have filled : Machine.memory { system.machine with
      memory := filledRecord
        (processHead system.machine.memory (page.pointer hhdmOffset) system.pidCounter entry)
        (page.pointer hhdmOffset) (page.pointer hhdmOffset + 4095#64) pagemap name } = _ := rfl
  have fields := filledRecord_created (fun _ _ => rfl) filled
  refine ⟨_, created, fields.state, ?_⟩
  intro address outside
  have offRecord : ¬InRange (page.pointer hhdmOffset) processSize address :=
    fun inRecord => outside (inRecord.mono (by decide))
  rw [filledRecord_outside offRecord]
  exact processHead_outside offRecord

end Exhausted

/-! What belongs to a process -/

/-- The frames that a creation takes: `taken` are those of the loaded image, tables
and pages. -/
structure Owned where
  pagemap : Frame
  taken : List Frame
  record : Frame
  stack : Frame

/-- All of them, in the order they were taken. -/
def Owned.frames (owned : Owned) : List Frame :=
  owned.pagemap :: (owned.taken ++ [owned.record, owned.stack])

/-- The frame is neither free nor the heap's. -/
def Withheld (held : Heap → Set Frame) (state : Heap × Machine) (frame : Frame) : Prop :=
  frame.address ∉ state.2.free ∧ frame ∉ held state.1

theorem Private.withheld {state : Heap × Machine} {frame : Frame}
    (isPrivate : Private hhdmOffset kernel held state frame) : Withheld held state frame :=
  ⟨isPrivate.inUse.notFree, isPrivate.notHeap⟩

/-- The making of a process: a pagemap, the pages of the image, then the record and
the stack. -/
structure Building (hhdmOffset : U64) (kernel : Frame) (owned : Owned) (before fresh : Machine)
    (visits : List PageVisit) (mappings : List Mapping) (loaded after : Machine) : Prop where
  made : NewPagemap hhdmOffset kernel before owned.pagemap fresh
  pages : PageRun hhdmOffset owned.pagemap Set.univ fresh visits mappings loaded
  taken : owned.taken = takenBy mappings
  takes : TakesFrames hhdmOffset [owned.record, owned.stack] loaded after

namespace Building

variable {owned : Owned} {before fresh loaded after : Machine} {visits : List PageVisit}
  {mappings : List Mapping} {heap : Heap}

/-- The frames come off the top of the free stack. -/
theorem free (building : Building hhdmOffset kernel owned before fresh visits mappings loaded after) :
    before.free = after.free ++ owned.frames.reverse.map Frame.address := by
  rw [building.made.free, building.pages.run.free, building.takes.free, Owned.frames,
    building.taken]
  simp

theorem nodup
    (building : Building hhdmOffset kernel owned before fresh visits mappings loaded after)
    (usable : before.stack.Usable) :
    owned.frames.Nodup ∧ ∀ frame ∈ owned.frames, frame.address ∉ after.free := by
  have nodup : before.free.Nodup := usable.nodup
  rw [building.free] at nodup
  obtain ⟨-, framesNodup, apart⟩ := List.nodup_append.mp nodup
  refine ⟨List.nodup_reverse.mp (List.Nodup.of_map _ framesNodup), ?_⟩
  intro frame membership free
  exact apart _ free _ (List.mem_map_of_mem (List.mem_reverse.mpr membership)) rfl

theorem wasFree
    (building : Building hhdmOffset kernel owned before fresh visits mappings loaded after)
    {frame : Frame} (membership : frame ∈ owned.frames) : frame.address ∈ before.free := by
  rw [building.free]
  exact List.mem_append_right _ (List.mem_map_of_mem (List.mem_reverse.mpr membership))

theorem careful
    (building : Building hhdmOffset kernel owned before fresh visits mappings loaded after)
    (sound : Sound hhdmOffset kernel held (heap, before)) :
    Careful hhdmOffset kernel held (heap, before) (heap, after) ∧
      Private hhdmOffset kernel held (heap, after) owned.record ∧
      Private hhdmOffset kernel held (heap, after) owned.stack := by
  have loading := building.made.careful sound building.pages.run
  obtain ⟨taking, isPrivate⟩ := building.takes.careful loading.sound
  exact ⟨loading.trans taking, isPrivate _ (by simp), isPrivate _ (by simp)⟩

theorem withheld
    (building : Building hhdmOffset kernel owned before fresh visits mappings loaded after)
    (sound : Sound hhdmOffset kernel held (heap, before)) {frame : Frame}
    (membership : frame ∈ owned.frames) : Withheld held (heap, after) frame := by
  refine ⟨(building.nodup sound.usable).2 frame membership, ?_⟩
  exact fun inHeap => sound.heap frame inHeap (building.wasFree membership)

end Building

end Nekonix
