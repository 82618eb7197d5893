import Mathlib.Data.List.Rotate
import Nekonix.Mm.Vmm.Cleared
import Nekonix.Proc.Scheduler.Preemption

/-!
# Preemption is transparent

A tick gives the process it dispatches what was interrupted last, and ticks in a
row dispatch the processes in the order of their indices.
-/

namespace Nekonix

open FlatMemory RadixTable Transition

variable {Heap : Type} {hhdmOffset : U64} {kernel : Frame} {held : Heap → Set Frame}
  {files : Files Heap} {history : History Heap} {owneds : List Owned} {system : System Heap}

/-- The process at `index` gets back the context that was stored for it last, and
its pagemap; no context is overwritten but that of the process dispatched last. -/
structure Resumed (hhdmOffset : U64) (interrupt : Tick) (history after : History Heap)
    (index : Nat) (birth : Birth) : Prop where
  listed : history.births[index]? = some birth
  dispatched : after.owner = some index
  loaded : (lastAt Prod.fst after.stored index).map Prod.snd =
    some (readContext after.system.machine.memory interrupt.frame)
  pagemap : after.system.cr3 = physical hhdmOffset birth.pagemap
  others : ∀ position other, history.births[position]? = some other →
    history.owner ≠ some position →
    (readProcess after.system.machine.memory other.record).ctx =
      (readProcess history.system.machine.memory other.record).ctx

/-- The ticks that follow find the interrupt frame outside of records and tables. -/
def History.SafeTicks (files : Files Heap) (hhdmOffset : U64) (kernel : Frame) :
    History Heap → List Tick → Prop
  | _, [] => True
  | history, interrupt :: ticks =>
      interrupt.Safe hhdmOffset kernel history ∧
        History.SafeTicks files hhdmOffset kernel
          (history.after files hhdmOffset (kernel.pointer hhdmOffset) (.tick interrupt)) ticks

/-- The indices of the processes that ticks in a row dispatch. -/
def History.dispatches (files : Files Heap) (hhdmOffset kernelPagemap : U64) :
    History Heap → List Tick → List Nat
  | _, [] => []
  | history, interrupt :: ticks =>
      let next := history.after files hhdmOffset kernelPagemap (.tick interrupt)
      next.system.scheduler.currentIndex.toNat ::
        History.dispatches files hhdmOffset kernelPagemap next ticks

namespace Orderly

theorem tick_index (orderly : Orderly hhdmOffset kernel held owneds history) {interrupt : Tick}
    (safe : interrupt.Safe hhdmOffset kernel history) (nonempty : history.births ≠ []) :
    (interrupt.apply hhdmOffset history.system).scheduler.currentIndex.toNat =
      (history.system.scheduler.currentIndex.toNat + 1) % history.births.length := by
  have listed : history.births.map Birth.record ≠ [] := by simpa using nonempty
  rw [(orderly.dispatched safe nonempty).scheduler]
  have index := orderly.table.nextIndex_toNat listed
  rw [List.length_map] at index
  exact index

theorem resumed (orderly : Orderly hhdmOffset kernel held owneds history) {interrupt : Tick}
    (safe : interrupt.Safe hhdmOffset kernel history) (nonempty : history.births ≠ []) :
    ∃ birth, Resumed hhdmOffset interrupt history
      (history.after files hhdmOffset (kernel.pointer hhdmOffset) (.tick interrupt))
      ((history.system.scheduler.currentIndex.toNat + 1) % history.births.length) birth := by
  have listed : history.births.map Birth.record ≠ [] := by simpa using nonempty
  have dispatched := orderly.dispatched safe nonempty
  have later := @tick _ _ _ _ files _ _ orderly _ safe
  have index := orderly.tick_index safe nonempty
  obtain ⟨isNext, running⟩ := dispatched.running orderly.table listed
  have below : (history.system.scheduler.currentIndex.toNat + 1) % history.births.length <
      history.births.length := Nat.mod_lt _ (List.length_pos_iff.mpr nonempty)
  have atIndex := List.getElem?_eq_getElem below
  generalize isBirth : history.births[(history.system.scheduler.currentIndex.toNat + 1) %
    history.births.length] = birth at atIndex
  have isProcess : birth.record = nextProcess history.system.scheduler := by
    rw [← isNext]
    have inTable : (history.births.map Birth.record)[(history.system.scheduler.currentIndex.toNat +
        1) % history.births.length]? = some birth.record := by
      rw [List.getElem?_map, atIndex]
      rfl
    have current := (orderly.table.dispatch listed dispatched).current listed
    exact ((orderly.table.dispatch listed dispatched).eq_iff_index current inTable).mpr index.symm
  refine ⟨birth, ?_⟩
  refine
    { listed := atIndex
      dispatched := ?dispatched
      loaded := ?loaded
      pagemap := ?pagemap
      others := ?others }
  case dispatched =>
    simp only [History.after, if_neg nonempty, SchedulerCall.apply, index]
  case loaded =>
    rw [later.stored _ birth atIndex]
    have loaded := dispatched.loaded
    rw [← isProcess] at loaded
    exact congrArg some loaded.symm
  case pagemap =>
    have cr3 := dispatched.cr3
    rw [← isProcess, orderly.pagemap birth (List.mem_of_getElem? atIndex)] at cr3
    exact cr3
  case others =>
    intro position other atPosition notOwner
    have record := dispatched.records other.record
      (List.mem_map_of_mem (List.mem_of_getElem? atPosition))
    have inTable : (history.births.map Birth.record)[position]? = some other.record := by
      rw [List.getElem?_map, atPosition]
      rfl
    have isCurrent := orderly.table.eq_iff_index (orderly.table.current listed) inTable
    have unsaved : ¬(other.record = currentProcess history.system.scheduler ∧
        Running history.system.scheduler history.system.machine.memory) := by
      rintro ⟨same, wasRunning⟩
      apply notOwner
      rw [orderly.owner, if_pos ⟨nonempty, wasRunning⟩, isCurrent.mp same]
    have ctx := congrArg Process.ctx record
    rw [Process.dispatched] at ctx
    dsimp only at ctx
    rw [if_neg unsaved] at ctx
    exact ctx

theorem dispatches_getElem (orderly : Orderly hhdmOffset kernel held owneds history)
    {ticks : List Tick} (nonempty : history.births ≠ [])
    (safe : history.SafeTicks files hhdmOffset kernel ticks) {turn : Nat}
    (below : turn < ticks.length) :
    (history.dispatches files hhdmOffset (kernel.pointer hhdmOffset) ticks)[turn]? =
      some ((history.system.scheduler.currentIndex.toNat + 1 + turn) % history.births.length) := by
  induction ticks generalizing history turn with
  | nil => cases below
  | cons interrupt ticks inductionHypothesis =>
      obtain ⟨here, later⟩ := safe
      have index := orderly.tick_index here nonempty
      cases turn with
      | zero => exact congrArg some index
      | succ turn =>
          have rest := inductionHypothesis (@tick _ _ _ _ files _ _ orderly _ here) nonempty later
            (Nat.lt_of_succ_lt_succ below)
          refine rest.trans ?_
          change some (((interrupt.apply hhdmOffset history.system).scheduler.currentIndex.toNat +
            1 + turn) % history.births.length) = _
          rw [index, Nat.add_assoc, Nat.mod_add_mod]
          congr 2
          omega

theorem length_dispatches (ticks : List Tick) :
    (history.dispatches files hhdmOffset (kernel.pointer hhdmOffset) ticks).length =
      ticks.length := by
  induction ticks generalizing history with
  | nil => rfl
  | cons interrupt ticks inductionHypothesis =>
      rw [History.dispatches, List.length_cons, List.length_cons, inductionHypothesis]

end Orderly

/-- A file system without files. -/
def noFiles : Files Unit where
  openFile state _ := (0#64, state)
  permissionCheck _ _ := false
  vnodeSize _ _ := 0#64
  kmalloc state _ := (0#64, state)
  read state _ _ _ := state
  close state _ := state

/-- The heap has no frames. -/
def nothingHeld : Unit → Set Frame := fun _ => ∅

theorem noFiles_respects : noFiles.Respects hhdmOffset kernel nothingHeld where
  openFile _ _ sound := .refl sound
  kmalloc _ _ sound := .refl sound
  read _ _ _ _ sound := .refl sound
  close _ _ sound := .refl sound

/-- A system with a kernel pagemap at frame 1 and free frames from 2 on. -/
def System.cleared (count : Nat) : System Unit where
  heap := ()
  machine := .cleared count
  scheduler := { processes := fun _ => 0#64, processCount := 0#32, currentIndex := 0#32 }
  pidCounter := 0#64
  cr3 := 0#64

theorem System.sound_cleared {count : Nat} (small : count < 2 ^ 39) :
    Sound hhdmOffset 1#40 nothingHeld (System.cleared count).state where
  usable := Machine.usable_cleared small
  space := Machine.addressSpace_cleared small
  heap := by simp [nothingHeld]

theorem Machine.directlyMapped_cleared {count : Nat} (small : count < 2 ^ 39) :
    DirectlyMapped 0#64 (Machine.cleared count) := by
  intro frame free
  have bounds := Machine.mem_free_cleared small free
  rw [frame.address_toNat, BitVec.toNat_zero]
  omega

/-- One creation with nine free frames. -/
theorem cleared_created (entry name : U64) :
    ∃ history, Run (guarded (History.after noFiles 0#64 (Frame.pointer 0#64 1#40))
        (History.Allowed noFiles 0#64 1#40)) (History.begin (System.cleared 9))
        [.createProcess entry name] history ∧ history.births ≠ [] := by
  have sound := @System.sound_cleared 0#64 9 (by decide)
  have mapped : DirectlyMapped 0#64 (History.begin (System.cleared 9)).system.machine :=
    Machine.directlyMapped_cleared (by decide)
  have free : (History.begin (System.cleared 9)).system.machine.free = _ :=
    Machine.free_cleared (by decide)
  have enough : 3 ≤ (History.begin (System.cleared 9)).system.machine.free.length := by
    rw [free, List.length_map, List.length_range]
    decide
  obtain ⟨making, owned, fresh, mappings, loaded, makes, -⟩ :=
    @schedulerCreateProcess_bearing _ _ _ _ noFiles (History.begin (System.cleared 9)).system
      entry name sound (by decide) mapped enough
  have allowed : (History.begin (System.cleared 9)).Allowed noFiles 0#64 1#40
      (.createProcess entry name) := fun _ => ⟨mapped, enough⟩
  refine ⟨_, Run.single ⟨allowed, rfl⟩, ?_⟩
  rw [History.births_after makes]
  exact List.append_ne_nil_of_right_ne_nil _ (List.cons_ne_nil _ _)

/-- As `History.Allowed`, but memory may run out. -/
def History.Unsupplied (hhdmOffset : U64) (kernel : Frame) (history : History Heap)
    (call : SchedulerCall) : Prop :=
  match call with
  | .tick interrupt => interrupt.Safe hhdmOffset kernel history
  | .terminate => False
  | _ => True

/-- A creation without a free frame puts the record at page 0. -/
theorem SchedulerCall.making_exhausted {page : Frame} {kernelPagemap : U64} (entry name : U64)
    (null : page.address = 0#64) (room : system.scheduler.processCount < maxProcesses)
    (empty : system.machine.free = []) (nonnull : page.pointer hhdmOffset ≠ 0#64)
    (stackNonnull : page.pointer hhdmOffset + 4095#64 ≠ 0#64) :
    ∃ making memory,
      (SchedulerCall.createProcess entry name).making files hhdmOffset kernelPagemap system =
        some making ∧
      making.record = page.pointer hhdmOffset ∧
      (SchedulerCall.createProcess entry name).apply files hhdmOffset kernelPagemap system =
        { system with
          machine := { system.machine with memory }
          scheduler := system.scheduler.push (page.pointer hhdmOffset)
          pidCounter := system.pidCounter + 1#64 } ∧
      (readProcess memory (page.pointer hhdmOffset)).state = ProcessState.new.code := by
  have notFull := BitVec.not_le.mpr room
  obtain ⟨fresh, isPagemap, -⟩ :=
    @vmmNewPagemap_exhausted hhdmOffset page kernelPagemap _ null empty nonnull
  obtain ⟨memory, created, state, -⟩ := @processCreate_exhausted _ hhdmOffset
    { system with machine := { system.machine with memory := fresh } } entry
    (page.pointer hhdmOffset) name page null empty nonnull stackNonnull
  refine ⟨⟨system.machine, page.pointer hhdmOffset, page.pointer hhdmOffset,
    { system.machine with memory }⟩, memory, ?_, rfl, ?_, state⟩
  · simp only [SchedulerCall.making, if_neg notFull, isPagemap, created]
  · simp only [SchedulerCall.apply, schedulerCreateProcess, if_neg notFull, isPagemap, created]

/-- A scheduler with one process. -/
def Scheduler.single (proc : U64) : Scheduler where
  processes := fun _ => proc
  processCount := 1#32
  currentIndex := 0#32

theorem ProcessTable.single {proc : U64} (nonnull : proc ≠ 0#64) :
    ProcessTable (Scheduler.single proc) [proc] where
  count := rfl
  bound := by
    rw [List.length_singleton]
    decide
  listed := by
    intro index listed atIndex
    exact (List.mem_singleton.mp (List.mem_of_getElem? atIndex)).symm
  current := fun _ => Nat.zero_lt_one
  nonnull := by simpa using nonnull
  nodup := List.nodup_singleton _
  separate := by
    intro first firstIn second secondIn different
    rw [List.mem_singleton.mp firstIn, List.mem_singleton.mp secondIn] at different
    exact absurd rfl different

/-- A tick between two entries with one record is, for the memory, a tick of a
single process. -/
theorem tick_shared {proc : U64} (interrupt : Tick) (count : system.scheduler.processCount ≠ 0#32)
    (current : currentProcess system.scheduler = proc) (next : nextProcess system.scheduler = proc)
    (nonnull : proc ≠ 0#64) :
    (interrupt.apply hhdmOffset system).machine =
        (interrupt.apply hhdmOffset { system with scheduler := .single proc }).machine ∧
      (interrupt.apply hhdmOffset system).scheduler =
        { system.scheduler with currentIndex := nextIndex system.scheduler } := by
  have single : (Scheduler.single proc).processCount ≠ 0#32 := by
    change 1#32 ≠ 0#32
    decide
  have currentSingle : currentProcess (Scheduler.single proc) = proc := rfl
  have nextSingle : nextProcess (Scheduler.single proc) = proc := rfl
  simp only [Tick.apply, timerInterruptHandler, schedulerContextSwitch, System.interrupted,
    saveCurrentProcess, if_neg count, if_neg single, current, next, currentSingle, nextSingle,
    if_pos nonnull, and_self]

/-- Where the direct map of the sample system begins. -/
def sharedOffset : U64 := 0x1000000#64

/-- The record of both processes of the sample system: page 0. -/
def sharedRecord : U64 := Frame.pointer sharedOffset 0#40

/-- An interrupt frame above every frame of a direct map that begins low. -/
def upperTick (context : Context) : Tick where
  frame := 0xffff800000000000#64
  context := context

theorem upperTick_outside {context : Context} {address : U64} {frame : Frame}
    (low : hhdmOffset.toNat < 2 ^ 52)
    (inside : InRange (upperTick context).frame intFrameSize address) :
    ¬frame.Holds hhdmOffset address := by
  have number := frame.address_toNat
  have bound := frame.isLt
  unfold Frame.Holds Frame.pointer higherHalf InRange upperTick intFrameSize at *
  bv_omega

/-- Such a tick is safe where the records are in frames. -/
theorem upperTick_safe (context : Context) (low : hhdmOffset.toNat < 2 ^ 52)
    (records : ∀ birth ∈ history.births, ∃ frame : Frame,
      birth.record = frame.pointer hhdmOffset) :
    (upperTick context).Safe hhdmOffset kernel history := by
  constructor
  · intro proc membership address inFrame inRecord
    obtain ⟨birth, isBirth, rfl⟩ := List.mem_map.mp membership
    obtain ⟨frame, isRecord⟩ := records birth isBirth
    rw [isRecord] at inRecord
    exact @upperTick_outside _ context address frame low inFrame
      (inRecord.mono (by decide))
  · intro address inFrame path membership table reached
    exact upperTick_outside low inFrame

/-- A system whose two processes have one record. -/
structure Shared (history : History Unit) (first : Context) : Prop where
  count : history.system.scheduler.processCount = 2#32
  index : history.system.scheduler.currentIndex.toNat < 2
  processes : ∀ slot : U32, slot.toNat < 2 →
    history.system.scheduler.processes slot = sharedRecord
  records : history.births.map Birth.record = [sharedRecord, sharedRecord]
  stored : (lastAt Prod.fst history.stored 0).map Prod.snd = some first

theorem Shared.processes_eq {history : History Unit} {first : Context}
    (shared : Shared history first) :
    currentProcess history.system.scheduler = sharedRecord ∧
      nextProcess history.system.scheduler = sharedRecord := by
  refine ⟨shared.processes _ shared.index, shared.processes _ ?_⟩
  rw [nextIndex, BitVec.toNat_umod, shared.count]
  exact Nat.mod_lt _ (by decide)

theorem Shared.safe {history : History Unit} {first : Context} (shared : Shared history first)
    (context : Context) : (upperTick context).Safe sharedOffset 1#40 history := by
  apply upperTick_safe context (by decide)
  intro birth isBirth
  have membership := List.mem_map_of_mem (f := Birth.record) isBirth
  rw [shared.records] at membership
  exact ⟨0#40, by simpa [sharedRecord] using membership⟩

/-- Two creations without a free frame. -/
theorem shared_created :
    ∃ history first, Run (guarded
        (History.after noFiles sharedOffset (Frame.pointer sharedOffset 1#40))
        (History.Unsupplied sharedOffset 1#40)) (History.begin (System.cleared 0))
        [.createProcess 0#64 0#64, .createProcess 0#64 0#64] history ∧
      Shared history first ∧ history.owner = none ∧
      history.system.scheduler.currentIndex = 0#32 ∧
      (readProcess history.system.machine.memory sharedRecord).state = ProcessState.new.code := by
  have nonnull : Frame.pointer sharedOffset 0#40 ≠ 0#64 := by decide
  have stackNonnull : Frame.pointer sharedOffset 0#40 + 4095#64 ≠ 0#64 := by decide
  have empty : (System.cleared 0).machine.free = [] := Machine.free_cleared (by decide)
  obtain ⟨making, memory, makes, isRecord, applied, -⟩ :=
    @SchedulerCall.making_exhausted _ sharedOffset noFiles (History.begin (System.cleared 0)).system
      0#40 (Frame.pointer sharedOffset 1#40) 0#64 0#64 rfl (by decide) empty nonnull stackNonnull
  obtain ⟨one, isOne⟩ : ∃ one, one = (History.begin (System.cleared 0)).after noFiles sharedOffset
    (Frame.pointer sharedOffset 1#40) (.createProcess 0#64 0#64) := ⟨_, rfl⟩
  have run : Run (guarded (History.after noFiles sharedOffset (Frame.pointer sharedOffset 1#40))
      (History.Unsupplied sharedOffset 1#40)) (History.begin (System.cleared 0))
      [.createProcess 0#64 0#64] one := .single ⟨trivial, isOne⟩
  simp only [History.after, makes, applied] at isOne
  have count : one.system.scheduler.processCount = 1#32 := by
    rw [isOne]
    rfl
  obtain ⟨other, last, otherMakes, otherRecord, otherApplied, state⟩ :=
    @SchedulerCall.making_exhausted _ sharedOffset noFiles one.system
      0#40 (Frame.pointer sharedOffset 1#40) 0#64 0#64 rfl (by rw [count]; decide)
      (by rw [isOne]; exact empty) nonnull stackNonnull
  have allowed : History.Unsupplied sharedOffset 1#40 one (.createProcess 0#64 0#64) := trivial
  have two := run.snoc ⟨allowed, rfl⟩
  have processes : one.system.scheduler.processes 0#32 = sharedRecord ∧
      one.system.scheduler.currentIndex = 0#32 := by
    rw [isOne]
    exact ⟨Scheduler.push_last _ _, rfl⟩
  have birth : one.births = [making.birth] ∧ one.owner = none ∧
      one.stored = [(0, readContext memory (processCtx making.record))] := by
    rw [isOne]
    exact ⟨rfl, rfl, rfl⟩
  have memoryOne : one.system.machine.memory = memory := by rw [isOne]
  clear isOne
  obtain ⟨births, owner, stored⟩ := birth
  obtain ⟨first, index⟩ := processes
  have pushed : ∀ slot : U32, slot.toNat < 2 →
      (one.system.scheduler.push sharedRecord).processes slot = sharedRecord := by
    intro slot below
    by_cases last : slot = 1#32
    · rw [last, ← count, Scheduler.push_last]
    · have zero : slot = 0#32 := by bv_omega
      rw [Scheduler.push_other _ (by rw [count]; exact last), zero, first]
  have pushedCount : (one.system.scheduler.push sharedRecord).processCount = 2#32 := by
    unfold Scheduler.push
    rw [count]
    rfl
  change other.record = sharedRecord at otherRecord
  refine ⟨_, readContext memory (processCtx making.record), two, ?_, ?_, ?_, ?_⟩
  all_goals simp only [History.after, otherMakes, otherApplied]
  · refine ⟨pushedCount, ?_, pushed, ?_, ?_⟩
    · change one.system.scheduler.currentIndex.toNat < 2
      rw [index]
      decide
    · simp only [births, List.map_append, List.map_cons, List.map_nil, Making.birth, isRecord,
        otherRecord]
      rfl
    · rw [stored, births]
      rfl
  · exact owner
  · exact index
  · exact state

/-- A tick there works on one record, whichever process is meant. -/
theorem Shared.tick {history : History Unit} {first : Context} (shared : Shared history first)
    (context : Context) :
    let next := (upperTick context).apply sharedOffset history.system
    next.scheduler = { history.system.scheduler with
        currentIndex := nextIndex history.system.scheduler } ∧
      (readProcess next.machine.memory sharedRecord).state = ProcessState.running.code ∧
      ((readProcess history.system.machine.memory sharedRecord).state =
          ProcessState.running.code →
        readContext next.machine.memory (upperTick context).frame = context) := by
  have nonnull : sharedRecord ≠ 0#64 := by decide
  have count : history.system.scheduler.processCount ≠ 0#32 := by
    rw [shared.count]
    decide
  obtain ⟨current, isNext⟩ := shared.processes_eq
  obtain ⟨machine, scheduler⟩ := @tick_shared _ sharedOffset history.system sharedRecord
    (upperTick context) count current isNext nonnull
  have apart : (upperTick context).Apart [sharedRecord] := by
    intro proc membership address inFrame inRecord
    rw [List.mem_singleton.mp membership] at inRecord
    exact @upperTick_outside sharedOffset context address 0#40 (by decide) inFrame
      (inRecord.mono (by decide))
  have dispatched := @Tick.apply_spec Unit
    { history.system with scheduler := .single sharedRecord } [sharedRecord] sharedOffset
    (upperTick context) (ProcessTable.single nonnull) (List.cons_ne_nil _ _) apart
  have record := dispatched.records sharedRecord List.mem_cons_self
  dsimp only
  rw [machine]
  refine ⟨scheduler, ?_, ?_⟩
  · rw [record]
    rfl
  · intro running
    refine dispatched.loaded.trans ?_
    change (readProcess _ sharedRecord).ctx = context
    rw [record]
    exact if_pos ⟨rfl, running⟩

end Nekonix
