import Nekonix.Proc.Scheduler.Records

/-!
# One dispatch

What `scheduler_context_switch` does to the records, the interrupt frame and the
pagemap in use, where the process table lists separate records.
-/

namespace Nekonix

open FlatMemory

variable {Heap : Type} {hhdmOffset : U64} {system : System Heap} {scheduler : Scheduler}
  {procs : List U64} {proc frame : U64} {memory : Memory}

/-- The process table lists the records `procs`, which share no byte. -/
structure ProcessTable (scheduler : Scheduler) (procs : List U64) : Prop where
  count : scheduler.processCount.toNat = procs.length
  bound : procs.length ≤ 256
  listed : ∀ index proc, procs[index]? = some proc →
    scheduler.processes (BitVec.ofNat 32 index) = proc
  current : procs ≠ [] → scheduler.currentIndex.toNat < procs.length
  nonnull : ∀ proc ∈ procs, proc ≠ 0#64
  nodup : procs.Nodup
  separate : ∀ proc ∈ procs, ∀ other ∈ procs, proc ≠ other →
    Separate proc processSize other processSize

namespace ProcessTable

theorem empty (none : scheduler.processCount = 0#32) : ProcessTable scheduler [] where
  count := by rw [none]; rfl
  bound := Nat.zero_le _
  listed := by simp
  current := fun nonempty => absurd rfl nonempty
  nonnull := by simp
  nodup := List.nodup_nil
  separate := by simp

theorem at_index (table : ProcessTable scheduler procs) {index : U32}
    (below : index.toNat < procs.length) :
    procs[index.toNat]? = some (scheduler.processes index) := by
  rw [List.getElem?_eq_getElem below]
  have listed := table.listed index.toNat _ (List.getElem?_eq_getElem below)
  rw [BitVec.ofNat_toNat, BitVec.setWidth_eq] at listed
  rw [listed]

theorem mem (table : ProcessTable scheduler procs) {index : U32}
    (below : index.toNat < procs.length) : scheduler.processes index ∈ procs :=
  List.mem_of_getElem? (table.at_index below)

/-- The records are listed once, so a record tells its index. -/
theorem eq_iff_index (table : ProcessTable scheduler procs) {index : Nat} {other : U32}
    (below : other.toNat < procs.length) (atIndex : procs[index]? = some proc) :
    proc = scheduler.processes other ↔ index = other.toNat := by
  have isOther := table.at_index below
  constructor
  · intro same
    rw [← same, ← atIndex] at isOther
    exact ((List.getElem?_inj below table.nodup).mp isOther).symm
  · intro same
    rw [← same, atIndex] at isOther
    exact Option.some.inj isOther

theorem current_mem (table : ProcessTable scheduler procs) (nonempty : procs ≠ []) :
    currentProcess scheduler ∈ procs := table.mem (table.current nonempty)

theorem nextIndex_toNat (table : ProcessTable scheduler procs) (nonempty : procs ≠ []) :
    (nextIndex scheduler).toNat = (scheduler.currentIndex.toNat + 1) % procs.length := by
  have below := table.current nonempty
  have bound := table.bound
  rw [nextIndex, BitVec.toNat_umod, table.count, BitVec.toNat_add]
  congr 1
  change (scheduler.currentIndex.toNat + 1) % 2 ^ 32 = _
  omega

theorem nextIndex_lt (table : ProcessTable scheduler procs) (nonempty : procs ≠ []) :
    (nextIndex scheduler).toNat < procs.length := by
  rw [table.nextIndex_toNat nonempty]
  exact Nat.mod_lt _ (List.length_pos_iff.mpr nonempty)

theorem next_mem (table : ProcessTable scheduler procs) (nonempty : procs ≠ []) :
    nextProcess scheduler ∈ procs := table.mem (table.nextIndex_lt nonempty)

/-- Moving on to the next index keeps the table. -/
theorem advance (table : ProcessTable scheduler procs) (nonempty : procs ≠ []) :
    ProcessTable { scheduler with currentIndex := nextIndex scheduler } procs where
  count := table.count
  bound := table.bound
  listed := table.listed
  current := fun _ => table.nextIndex_lt nonempty
  nonnull := table.nonnull
  nodup := table.nodup
  separate := table.separate

theorem count_ne_zero (table : ProcessTable scheduler procs) (nonempty : procs ≠ []) :
    scheduler.processCount ≠ 0#32 := by
  intro zero
  have count := table.count
  rw [zero] at count
  exact nonempty (List.eq_nil_of_length_eq_zero count.symm)

end ProcessTable

/-- The process at `current_index` has the processor. -/
def Running (scheduler : Scheduler) (memory : Memory) : Prop :=
  (readProcess memory (currentProcess scheduler)).state = ProcessState.running.code

instance (scheduler : Scheduler) (memory : Memory) : Decidable (Running scheduler memory) :=
  inferInstanceAs (Decidable (_ = _))

/-- An exit while no process runs has no effect. -/
theorem schedulerTerminateCurrentProcess_idle
    (idle : ¬Running system.scheduler system.machine.memory) :
    (schedulerTerminateCurrentProcess system).2 = system := by
  unfold schedulerTerminateCurrentProcess
  dsimp only
  rw [if_pos (by exact idle)]

/-- A record after a dispatch from `scheduler`: the interrupted context is saved in
the running process, and the next process is set running. -/
def Process.dispatched (scheduler : Scheduler) (memory : Memory) (context : Context)
    (proc : U64) : Process :=
  let process := readProcess memory proc
  { process with
    ctx :=
      if proc = currentProcess scheduler ∧ Running scheduler memory then context
      else process.ctx
    state :=
      if proc = nextProcess scheduler then ProcessState.running.code else process.state }

/-- The effects of a dispatch that interrupts `context`. -/
structure Dispatched (hhdmOffset : U64) (procs : List U64) (frame : U64) (context : Context)
    (system next : System Heap) : Prop where
  scheduler : next.scheduler =
    { system.scheduler with currentIndex := nextIndex system.scheduler }
  records : ∀ proc ∈ procs, readProcess next.machine.memory proc =
    .dispatched system.scheduler system.machine.memory context proc
  loaded : readContext next.machine.memory frame =
    (readProcess next.machine.memory (nextProcess system.scheduler)).ctx
  cr3 : next.cr3 = physical hhdmOffset
    (readProcess system.machine.memory (nextProcess system.scheduler)).pagemap
  heap : next.heap = system.heap
  stack : next.machine.stack = system.machine.stack
  pidCounter : next.pidCounter = system.pidCounter
  outside : ∀ address, ¬InRange frame intFrameSize address →
    (∀ proc ∈ procs, ¬InRange proc processSize address) →
    next.machine.memory address = system.machine.memory address

/-- The records after the running process is saved. -/
theorem ProcessTable.saved (table : ProcessTable scheduler procs) (nonempty : procs ≠ [])
    (apart : ∀ proc ∈ procs, FrameApart frame proc) (memory : Memory) :
    (∀ proc ∈ procs, readProcess (saveCurrentProcess memory scheduler frame) proc =
      { readProcess memory proc with
        ctx := if proc = currentProcess scheduler ∧ Running scheduler memory then
          readContext memory frame else (readProcess memory proc).ctx }) ∧
    ∀ address, (∀ proc ∈ procs, ¬InRange proc processSize address) →
      saveCurrentProcess memory scheduler frame address = memory address := by
  have currentIn := table.current_mem nonempty
  have nonnull := table.nonnull _ currentIn
  unfold saveCurrentProcess
  by_cases running : Running scheduler memory
  · have saves : currentProcess scheduler ≠ 0#64 ∧
        Memory.load32 memory (processState (currentProcess scheduler)) =
          ProcessState.running.code := ⟨nonnull, running⟩
    rw [if_pos saves]
    constructor
    · intro proc membership
      by_cases isCurrent : proc = currentProcess scheduler
      · subst isCurrent
        rw [readProcess_saved (apart _ currentIn), if_pos ⟨rfl, running⟩]
      · rw [if_neg fun both => isCurrent both.1]
        apply readProcess_congr
        intro address inRecord
        apply memcpy_outside (by decide)
        intro inCtx
        exact table.separate proc membership _ currentIn isCurrent address inRecord
          (processCtx_inRecord inCtx)
    · intro address outside
      apply memcpy_outside (by decide)
      exact fun inCtx => outside _ currentIn (processCtx_inRecord inCtx)
  · have idle : ¬(currentProcess scheduler ≠ 0#64 ∧
        Memory.load32 memory (processState (currentProcess scheduler)) =
          ProcessState.running.code) := fun both => running both.2
    rw [if_neg idle]
    refine ⟨?_, fun _ _ => rfl⟩
    intro proc _
    rw [if_neg fun both => running both.2]

/-- The records after the next process is set running. -/
theorem ProcessTable.setRunning (table : ProcessTable scheduler procs) (nonempty : procs ≠ [])
    (membership : proc ∈ procs) :
    readProcess (Memory.store32 memory (processState (nextProcess scheduler))
        ProcessState.running.code) proc =
      { readProcess memory proc with
        state := if proc = nextProcess scheduler then ProcessState.running.code
          else (readProcess memory proc).state } := by
  have nextIn := table.next_mem nonempty
  by_cases isNext : proc = nextProcess scheduler
  · rw [if_pos isNext, isNext, readProcess_setState]
  · rw [if_neg isNext]
    apply readProcess_congr
    intro address inRecord
    apply store_outside
    intro inState
    exact table.separate proc membership _ nextIn isNext address inRecord
      (processState_inRecord inState)

theorem schedulerContextSwitch_spec (hhdmOffset : U64)
    (table : ProcessTable system.scheduler procs) (nonempty : procs ≠ [])
    (apart : ∀ proc ∈ procs, FrameApart frame proc) :
    Dispatched hhdmOffset procs frame (readContext system.machine.memory frame) system
      (schedulerContextSwitch hhdmOffset system frame) := by
  have nextIn := table.next_mem nonempty
  have nextApart := apart _ nextIn
  obtain ⟨saved, savedOutside⟩ := table.saved nonempty apart system.machine.memory
  unfold schedulerContextSwitch
  rw [if_neg (table.count_ne_zero nonempty)]
  dsimp only
  rw [if_pos (table.nonnull _ nextIn)]
  generalize saveCurrentProcess system.machine.memory system.scheduler frame = savedMemory
    at saved savedOutside
  have set : ∀ proc ∈ procs, readProcess (Memory.store32 savedMemory
      (processState (nextProcess system.scheduler)) ProcessState.running.code) proc =
        .dispatched system.scheduler system.machine.memory
          (readContext system.machine.memory frame) proc := by
    intro proc membership
    rw [table.setRunning nonempty membership, saved proc membership]
    rfl
  have setOutside : ∀ address, (∀ proc ∈ procs, ¬InRange proc processSize address) →
      Memory.store32 savedMemory (processState (nextProcess system.scheduler))
        ProcessState.running.code address = system.machine.memory address := by
    intro address outside
    rw [← savedOutside address outside]
    exact store_outside fun inState => outside _ nextIn (processState_inRecord inState)
  generalize Memory.store32 savedMemory (processState (nextProcess system.scheduler))
    ProcessState.running.code = setMemory at set setOutside
  have records : ∀ proc ∈ procs, readProcess (memcpy setMemory frame
      (processCtx (nextProcess system.scheduler)) intFrameSize) proc = readProcess setMemory proc := by
    intro proc membership
    apply readProcess_congr
    intro address inRecord
    apply memcpy_outside (by decide)
    exact fun inFrame => apart proc membership address inFrame inRecord
  refine
    { scheduler := rfl
      records := ?records
      loaded := ?loaded
      cr3 := ?cr3
      heap := rfl
      stack := rfl
      pidCounter := rfl
      outside := ?outside }
  case records =>
    intro proc membership
    rw [records proc membership, set proc membership]
  case loaded =>
    have loaded := readContext_loaded setMemory nextApart
    rw [← records _ nextIn] at loaded
    exact loaded
  case cr3 =>
    have pagemap := congrArg Process.pagemap ((records _ nextIn).trans (set _ nextIn))
    exact congrArg (physical hhdmOffset) pagemap
  case outside =>
    intro address offFrame offRecords
    rw [← setOutside address offRecords]
    exact memcpy_outside (by decide) offFrame

/-! A timer interrupt -/

/-- A timer interrupt: where the stub saves the registers, and their values. -/
structure Tick where
  frame : U64
  context : Context

/-- The system at the entry of an interrupt. -/
def System.interrupted (system : System Heap) (frame : U64) (context : Context) : System Heap :=
  { system with
    machine := { system.machine with
      memory := writeContext system.machine.memory frame context } }

def Tick.apply (hhdmOffset : U64) (system : System Heap) (tick : Tick) : System Heap :=
  timerInterruptHandler hhdmOffset (system.interrupted tick.frame tick.context) tick.frame

/-- The interrupt frame shares no byte with a record. -/
def Tick.Apart (tick : Tick) (procs : List U64) : Prop :=
  ∀ proc ∈ procs, FrameApart tick.frame proc

theorem ProcessTable.dispatch {next : System Heap} {context : Context}
    (table : ProcessTable system.scheduler procs) (nonempty : procs ≠ [])
    (dispatched : Dispatched hhdmOffset procs frame context system next) :
    ProcessTable next.scheduler procs := by
  rw [dispatched.scheduler]
  exact table.advance nonempty

theorem Tick.apply_spec (hhdmOffset : U64) (tick : Tick)
    (table : ProcessTable system.scheduler procs) (nonempty : procs ≠ [])
    (apart : tick.Apart procs) :
    Dispatched hhdmOffset procs tick.frame tick.context system (tick.apply hhdmOffset system) := by
  have interruptedTable :
      ProcessTable (system.interrupted tick.frame tick.context).scheduler procs := table
  have entered : ∀ proc ∈ procs,
      readProcess (writeContext system.machine.memory tick.frame tick.context) proc =
        readProcess system.machine.memory proc := by
    intro proc membership
    apply readProcess_congr
    intro address inRecord
    apply writeContext_outside
    exact fun inFrame => apart proc membership address inFrame inRecord
  have dispatched := schedulerContextSwitch_spec hhdmOffset interruptedTable nonempty apart
  have running : Running system.scheduler
      (writeContext system.machine.memory tick.frame tick.context) ↔
        Running system.scheduler system.machine.memory := by
    unfold Running
    rw [entered _ (table.current_mem nonempty)]
  refine
    { scheduler := dispatched.scheduler
      records := ?records
      loaded := dispatched.loaded
      cr3 := ?cr3
      heap := dispatched.heap
      stack := dispatched.stack
      pidCounter := dispatched.pidCounter
      outside := ?outside }
  case records =>
    intro proc membership
    have record := dispatched.records proc membership
    simp only [Process.dispatched, System.interrupted, readContext_writeContext, running,
      entered proc membership] at record
    exact record
  case cr3 =>
    have pagemap := congrArg Process.pagemap (entered _ (table.next_mem nonempty))
    have cr3 := dispatched.cr3
    rw [System.interrupted] at cr3
    rw [← pagemap]
    exact cr3
  case outside =>
    intro address offFrame offRecords
    exact (dispatched.outside address offFrame offRecords).trans (writeContext_outside offFrame)

/-- After a dispatch the process at `current_index` has the processor. -/
theorem Dispatched.running {next : System Heap} {context : Context}
    (dispatched : Dispatched hhdmOffset procs frame context system next)
    (table : ProcessTable system.scheduler procs) (nonempty : procs ≠ []) :
    currentProcess next.scheduler = nextProcess system.scheduler ∧
      Running next.scheduler next.machine.memory := by
  have isNext : currentProcess next.scheduler = nextProcess system.scheduler := by
    rw [dispatched.scheduler]
    rfl
  refine ⟨isNext, ?_⟩
  unfold Running
  rw [isNext, dispatched.records _ (table.next_mem nonempty), Process.dispatched]
  exact if_pos rfl

/-- In every tick only the process that has the processor gets its context stored,
and gets the interrupted one; `owner` is the process that has it at the start. -/
def Undisturbed (hhdmOffset : U64) (procs : List U64) :
    (owner : Option U64) → System Heap → List Tick → Prop
  | _, _, [] => True
  | owner, system, tick :: ticks =>
      let next := tick.apply hhdmOffset system
      (∀ proc ∈ procs, (readProcess next.machine.memory proc).ctx =
        if owner = some proc then tick.context
        else (readProcess system.machine.memory proc).ctx) ∧
      Undisturbed hhdmOffset procs (some (nextProcess system.scheduler)) next ticks

/-- The process that has the processor, as the scheduler sees it. -/
def owner (scheduler : Scheduler) (memory : Memory) : Option U64 :=
  if Running scheduler memory then some (currentProcess scheduler) else none

theorem undisturbed_owner (ticks : List Tick) (table : ProcessTable system.scheduler procs)
    (nonempty : procs ≠ []) (apart : ∀ tick ∈ ticks, tick.Apart procs) :
    Undisturbed hhdmOffset procs (owner system.scheduler system.machine.memory) system ticks := by
  induction ticks generalizing system with
  | nil => trivial
  | cons tick ticks inductionHypothesis =>
      have dispatched := tick.apply_spec hhdmOffset table nonempty (apart tick List.mem_cons_self)
      obtain ⟨isNext, running⟩ := dispatched.running table nonempty
      constructor
      · intro proc membership
        rw [dispatched.records proc membership, Process.dispatched]
        unfold owner
        by_cases before : Running system.scheduler system.machine.memory
        · simp only [before, and_true, if_true, Option.some.injEq, eq_comm]
        · simp [before]
      · have rest := inductionHypothesis (table.dispatch nonempty dispatched)
          fun later membership => apart later (List.mem_cons_of_mem _ membership)
        rw [owner, if_pos running, isNext] at rest
        exact rest

end Nekonix
