import Mathlib.Data.Int.ModEq
import Nekonix.Proc.Scheduler.Exit
import Nekonix.Sys.Idt.Results

/-!
# The arguments of a write

`syscall_handler` reads `rsi` and `rdx` behind the busy-wait, and each context switch of
the wait loads the interrupt frame with the registers of another process.  What is written
is what the process asks for whose turn it is when the device gets ready.
-/

namespace Nekonix

open FlatMemory

variable {Heap Other : Type} {hhdmOffset : U64} {fuel polls : Nat} {scheduler : Scheduler}
  {start system next : System Heap} {procs : List U64} {frame proc : U64}
  {devices : U32 → Option (Handle Heap)} {device : Handle Heap}

/-! The calls of `device->write` -/

/-- A call of `device->write`, and the pagemap in use then. -/
structure WriteCall where
  data : U64
  size : U64
  cr3 : U64
deriving DecidableEq

def System.withHeap (system : System Heap) (heap : Other) : System Other where
  heap
  machine := system.machine
  scheduler := system.scheduler
  pidCounter := system.pidCounter
  cr3 := system.cr3

/-- The device, with a log of the calls of `write` beside the heap. -/
def Handle.recorded (device : Handle Heap) : Handle (Heap × List WriteCall) where
  poll := fun system =>
    let (state, next) := device.poll (system.withHeap system.heap.1)
    (state, next.withHeap (next.heap, system.heap.2))
  read := fun system buffer =>
    let (result, next) := device.read (system.withHeap system.heap.1) buffer
    (result, next.withHeap (next.heap, system.heap.2))
  write := fun system data size =>
    let next := device.write (system.withHeap system.heap.1) data size
    next.withHeap (next.heap, system.heap.2 ++ [⟨data, size, system.cr3⟩])

/-- The calls of `device->write` that `syscall_handler` makes. -/
def writeCalls (devices : U32 → Option (Handle Heap)) (hhdmOffset : U64) (fuel : Nat)
    (system : System Heap) (frame : U64) : Option (List WriteCall) :=
  (syscallHandler (fun id => (devices id).map Handle.recorded) hhdmOffset fuel
    (system.withHeap (system.heap, [])) frame).map fun (_, next) => next.heap.2

/-- The heap has no part in a context switch. -/
theorem schedulerContextSwitch_withHeap (hhdmOffset : U64) (system : System Heap) (frame : U64)
    (heap : Other) : schedulerContextSwitch hhdmOffset (system.withHeap heap) frame =
      (schedulerContextSwitch hhdmOffset system frame).withHeap heap := by
  unfold System.withHeap
  by_cases none : system.scheduler.processCount = 0#32
  · simp only [schedulerContextSwitch, if_pos none]
  · by_cases switches : nextProcess system.scheduler ≠ 0#64
    · simp only [schedulerContextSwitch, if_neg none, if_pos switches]
    · simp only [schedulerContextSwitch, if_neg none, if_neg switches]

theorem schedulerContextSwitch_heap (hhdmOffset : U64) (system : System Heap) (frame : U64) :
    (schedulerContextSwitch hhdmOffset system frame).heap = system.heap := by
  by_cases none : system.scheduler.processCount = 0#32
  · simp only [schedulerContextSwitch, if_pos none]
  · by_cases switches : nextProcess system.scheduler ≠ 0#64
    · simp only [schedulerContextSwitch, if_neg none, if_pos switches]
    · simp only [schedulerContextSwitch, if_neg none, if_neg switches]

/-- The recorded device waits as the device does. -/
theorem waitForDevice_recorded (log : List WriteCall) :
    waitForDevice hhdmOffset device.recorded frame fuel (system.withHeap (system.heap, log)) =
      (waitForDevice hhdmOffset device frame fuel system).map fun waited =>
        waited.withHeap (waited.heap, log) := by
  induction fuel generalizing system with
  | zero => rfl
  | succ fuel inductionHypothesis =>
      have same : (system.withHeap (system.heap, log)).withHeap system.heap = system := rfl
      rw [waitForDevice, waitForDevice]
      dsimp only [Handle.recorded]
      rw [show (system.withHeap (system.heap, log)).heap = (system.heap, log) from rfl, same]
      by_cases busy : (device.poll system).1 = deviceBusy
      · rw [if_pos busy, if_pos busy, schedulerContextSwitch_withHeap, ← inductionHypothesis,
          schedulerContextSwitch_heap]
        rfl
      · rw [if_neg busy, if_neg busy]
        rfl

/-- A write is made once, with what the frame holds after the wait. -/
theorem writeCalls_of_wait
    (number : Memory.load64 system.machine.memory (intFrameRax frame) = 2#64)
    (named : calledDevice devices system frame = some device)
    (ready : waitForDevice hhdmOffset device frame fuel system = some next) :
    writeCalls devices hhdmOffset fuel system frame =
      some [⟨Memory.load64 next.machine.memory (intFrameRsi frame),
        Memory.load64 next.machine.memory (intFrameRdx frame), next.cr3⟩] := by
  have recordedDevice : deviceGet (fun id => (devices id).map Handle.recorded)
      ((Memory.load64 system.machine.memory (intFrameRdi frame)).setWidth 32) =
        some device.recorded := by
    unfold calledDevice at named
    unfold deviceGet at named ⊢
    split at named
    · cases named
    · rename_i below
      rw [if_neg below]
      exact congrArg (Option.map Handle.recorded) named
  unfold writeCalls syscallHandler
  dsimp only
  rw [show (system.withHeap (system.heap, ([] : List WriteCall))).machine = system.machine from rfl,
    number, if_neg (by decide), if_pos rfl, recordedDevice]
  dsimp only
  rw [waitForDevice_recorded, ready]
  rfl

/-! The busy-wait -/

/-- The device is busy for `polls` polls, with a context switch after each, and then
ready. -/
def BusyFor (hhdmOffset : U64) (device : Handle Heap) (frame : U64) :
    (polls : Nat) → System Heap → Prop
  | 0, system => (device.poll system).1 = deviceReady
  | polls + 1, system =>
      (device.poll system).1 = deviceBusy ∧
        BusyFor hhdmOffset device frame polls
          (schedulerContextSwitch hhdmOffset (device.poll system).2 frame)

/-- `poll` keeps to memory of its own. -/
structure Handle.PollsQuietly (device : Handle Heap) (procs : List U64) (frame : U64) : Prop where
  registers : ∀ system, KeepsRegisters procs frame system (device.poll system).2
  cr3 : ∀ system, (device.poll system).2.cr3 = system.cr3

/-- The process whose turn it is after `turns` context switches. -/
def processAfter (scheduler : Scheduler) (turns : Nat) : U64 :=
  scheduler.processes
    (BitVec.ofNat 32 ((scheduler.currentIndex.toNat + turns) % scheduler.processCount.toNat))

theorem processAfter_zero (table : ProcessTable scheduler procs) (nonempty : procs ≠ []) :
    processAfter scheduler 0 = currentProcess scheduler := by
  rw [processAfter, Nat.add_zero, table.count, Nat.mod_eq_of_lt (table.current nonempty),
    BitVec.ofNat_toNat, BitVec.setWidth_eq]
  rfl

theorem processAfter_succ (table : ProcessTable scheduler procs) (nonempty : procs ≠ [])
    (turns : Nat) :
    processAfter { scheduler with currentIndex := nextIndex scheduler } turns =
      processAfter scheduler (turns + 1) := by
  unfold processAfter
  dsimp only
  rw [table.nextIndex_toNat nonempty, table.count, Nat.mod_add_mod, Nat.add_assoc,
    Nat.add_comm 1]

theorem processAfter_mem (table : ProcessTable scheduler procs) (nonempty : procs ≠ [])
    (turns : Nat) : processAfter scheduler turns ∈ procs := by
  have bound := table.bound
  have below := Nat.mod_lt (scheduler.currentIndex.toNat + turns)
    (List.length_pos_iff.mpr nonempty)
  apply table.mem
  rw [table.count, BitVec.toNat_ofNat]
  exact Nat.lt_of_le_of_lt (Nat.mod_le _ _) below

/-- The wait keeps the registers of every process, and the pagemap in use is that of the
process whose turn it is. -/
structure WaitKept (hhdmOffset : U64) (procs : List U64) (frame : U64)
    (start system : System Heap) : Prop where
  registers : ∀ proc ∈ procs,
    CallerKept procs frame proc
      (readContext start.machine.memory (callerFrame start frame proc)) system
  pagemaps : ∀ proc ∈ procs, (readProcess system.machine.memory proc).pagemap =
    (readProcess start.machine.memory proc).pagemap
  active : system.cr3 = physical hhdmOffset
    (readProcess start.machine.memory (currentProcess system.scheduler)).pagemap

namespace WaitKept

theorem entered (table : ProcessTable system.scheduler procs)
    (running : Running system.scheduler system.machine.memory)
    (active : system.cr3 = physical hhdmOffset
      (Memory.load64 system.machine.memory (processPagemap (currentProcess system.scheduler)))) :
    WaitKept hhdmOffset procs frame system system where
  registers := fun _ membership =>
    { table
      listed := membership
      running := fun _ => running
      registers := rfl }
  pagemaps := fun _ _ => rfl
  active := active

theorem poll (kept : WaitKept hhdmOffset procs frame start system)
    (quiet : device.PollsQuietly procs frame) :
    WaitKept hhdmOffset procs frame start (device.poll system).2 where
  registers := fun proc membership => (kept.registers proc membership).device (quiet.registers _)
  pagemaps := by
    intro proc membership
    rw [readProcess_congr ((quiet.registers system).records proc membership)]
    exact kept.pagemaps proc membership
  active := by
    rw [quiet.cr3, (quiet.registers system).scheduler]
    exact kept.active

theorem switch (kept : WaitKept hhdmOffset procs frame start system)
    (table : ProcessTable system.scheduler procs) (nonempty : procs ≠ [])
    (apart : ∀ proc ∈ procs, FrameApart frame proc) :
    WaitKept hhdmOffset procs frame start (schedulerContextSwitch hhdmOffset system frame) := by
  have dispatched := schedulerContextSwitch_spec hhdmOffset table nonempty apart
  refine
    { registers := fun proc membership =>
        (kept.registers proc membership).switch hhdmOffset apart
      pagemaps := ?pagemaps
      active := ?active }
  case pagemaps =>
    intro proc membership
    rw [dispatched.records proc membership]
    exact kept.pagemaps proc membership
  case active =>
    rw [dispatched.cr3, (dispatched.running table nonempty).1,
      kept.pagemaps _ (table.next_mem nonempty)]

/-- The wait ends at the turn that the polls count. -/
theorem wait (quiet : device.PollsQuietly procs frame)
    (apart : ∀ proc ∈ procs, FrameApart frame proc)
    (kept : WaitKept hhdmOffset procs frame start system)
    (table : ProcessTable system.scheduler procs) (nonempty : procs ≠ [])
    (busy : BusyFor hhdmOffset device frame polls system) (enough : polls < fuel) :
    ∃ waited, waitForDevice hhdmOffset device frame fuel system = some waited ∧
      WaitKept hhdmOffset procs frame start waited ∧
      currentProcess waited.scheduler = processAfter system.scheduler polls := by
  have polled := kept.poll quiet
  have sameScheduler := (quiet.registers system).scheduler
  induction polls generalizing system fuel with
  | zero =>
      obtain ⟨fuel, rfl⟩ := Nat.exists_eq_add_one_of_ne_zero (Nat.ne_zero_of_lt enough)
      have ready : (device.poll system).1 ≠ deviceBusy := by
        rw [show (device.poll system).1 = deviceReady from busy]
        decide
      refine ⟨(device.poll system).2, ?_, polled, ?_⟩
      · rw [waitForDevice]
        exact if_neg ready
      · rw [sameScheduler, processAfter_zero table nonempty]
  | succ polls inductionHypothesis =>
      obtain ⟨fuel, rfl⟩ := Nat.exists_eq_add_one_of_ne_zero (Nat.ne_zero_of_lt enough)
      obtain ⟨isBusy, rest⟩ := busy
      have polledTable : ProcessTable (device.poll system).2.scheduler procs := by
        rw [sameScheduler]
        exact table
      have dispatched := schedulerContextSwitch_spec hhdmOffset polledTable nonempty apart
      have switched := polled.switch polledTable nonempty apart
      obtain ⟨waited, ready, keptThen, turn⟩ :=
        inductionHypothesis switched (polledTable.dispatch nonempty dispatched) rest
          (Nat.lt_of_succ_lt_succ enough) (switched.poll quiet) (quiet.registers _).scheduler
      refine ⟨waited, ?_, keptThen, ?_⟩
      · rw [waitForDevice]
        dsimp only
        rw [if_pos isBusy]
        exact ready
      · rw [turn, dispatched.scheduler, processAfter_succ polledTable nonempty, sameScheduler]

end WaitKept

/-! What is written -/

/-- The write that the registers of a process ask for, under its pagemap. -/
def writeOf (hhdmOffset : U64) (system : System Heap) (frame proc : U64) : WriteCall where
  data := Memory.load64 system.machine.memory (intFrameRsi (callerFrame system frame proc))
  size := Memory.load64 system.machine.memory (intFrameRdx (callerFrame system frame proc))
  cr3 := physical hhdmOffset (Memory.load64 system.machine.memory (processPagemap proc))

/-- The process whose turn it is at the end of the wait is the one that is served. -/
theorem writeCalls_eq (table : ProcessTable system.scheduler procs) (nonempty : procs ≠ [])
    (running : Running system.scheduler system.machine.memory)
    (active : system.cr3 = physical hhdmOffset
      (Memory.load64 system.machine.memory (processPagemap (currentProcess system.scheduler))))
    (apart : ∀ proc ∈ procs, FrameApart frame proc)
    (quiet : device.PollsQuietly procs frame)
    (number : Memory.load64 system.machine.memory (intFrameRax frame) = 2#64)
    (named : calledDevice devices system frame = some device)
    (busy : BusyFor hhdmOffset device frame polls system) (enough : polls < fuel) :
    writeCalls devices hhdmOffset fuel system frame =
      some [writeOf hhdmOffset system frame (processAfter system.scheduler polls)] := by
  obtain ⟨waited, ready, kept, turn⟩ :=
    (WaitKept.entered table running active).wait quiet apart table nonempty busy enough
  have listed := processAfter_mem table nonempty polls
  have registers := (kept.registers _ listed).registers
  rw [callerFrame_current turn] at registers
  have data := @load_field_congr _ _ _ _ 104#64 (by decide) registers
  have size := @load_field_congr _ _ _ _ 112#64 (by decide) registers
  have pagemap := kept.active
  rw [turn] at pagemap
  rw [writeCalls_of_wait number named ready, pagemap]
  unfold writeOf intFrameRsi intFrameRdx
  rw [data, size]
  rfl

/-- The process asks for the same write as the caller, under the same pagemap. -/
def AsksForSame (system : System Heap) (frame proc : U64) : Prop :=
  let memory := system.machine.memory
  let caller := currentProcess system.scheduler
  proc = caller ∨
    Memory.load64 memory (intFrameRsi (processCtx proc)) =
        Memory.load64 memory (intFrameRsi frame) ∧
      Memory.load64 memory (intFrameRdx (processCtx proc)) =
        Memory.load64 memory (intFrameRdx frame) ∧
      Memory.load64 memory (processPagemap proc) = Memory.load64 memory (processPagemap caller)

theorem writeOf_eq_iff : writeOf hhdmOffset system frame proc =
    writeOf hhdmOffset system frame (currentProcess system.scheduler) ↔
      AsksForSame system frame proc := by
  unfold AsksForSame
  by_cases isCaller : proc = currentProcess system.scheduler
  · simp only [isCaller, true_or]
  · have waiting : callerFrame system frame proc = processCtx proc :=
      callerFrame_waiting (Ne.symm isCaller)
    have current : callerFrame system frame (currentProcess system.scheduler) = frame :=
      callerFrame_current rfl
    simp only [isCaller, false_or, writeOf, waiting, current, WriteCall.mk.injEq, physical_inj]

/-- Where each process has a pagemap of its own, the turn is the caller's exactly if the
polls go round the processes. -/
theorem asksForSame_iff_dvd (table : ProcessTable system.scheduler procs) (nonempty : procs ≠ [])
    (separate : ∀ proc ∈ procs, ∀ other ∈ procs,
      Memory.load64 system.machine.memory (processPagemap proc) =
        Memory.load64 system.machine.memory (processPagemap other) → proc = other) :
    AsksForSame system frame (processAfter system.scheduler polls) ↔ procs.length ∣ polls := by
  have listed := processAfter_mem table nonempty polls
  have current := table.current nonempty
  have same : AsksForSame system frame (processAfter system.scheduler polls) ↔
      processAfter system.scheduler polls = currentProcess system.scheduler := by
    constructor
    · rintro (same | ⟨-, -, same⟩)
      · exact same
      · exact separate _ listed _ (table.current_mem nonempty) same
    · exact .inl
  have below := Nat.mod_lt (system.scheduler.currentIndex.toNat + polls)
    (List.length_pos_iff.mpr nonempty)
  have bound := table.bound
  have position : (BitVec.ofNat 32
      ((system.scheduler.currentIndex.toNat + polls) % procs.length) : U32).toNat =
        (system.scheduler.currentIndex.toNat + polls) % procs.length := by
    rw [BitVec.toNat_ofNat]
    omega
  have atTurn : procs[(system.scheduler.currentIndex.toNat + polls) % procs.length]? =
      some (processAfter system.scheduler polls) := by
    rw [processAfter, table.count]
    have found := table.at_index (position.trans_lt below)
    rwa [position] at found
  rw [same, currentProcess, table.eq_iff_index current atTurn]
  have rounds := @Nat.modEq_iff_dvd' procs.length _ _
    (Nat.le_add_right system.scheduler.currentIndex.toNat polls)
  rw [Nat.add_sub_cancel_left, Nat.ModEq, Nat.mod_eq_of_lt current] at rounds
  exact eq_comm.trans rounds

/-- `write` is called once, with the arguments of the caller and under its pagemap, exactly
if the process whose turn it is after the busy polls asks for the same. -/
theorem write_serves_caller_iff (table : ProcessTable system.scheduler procs)
    (nonempty : procs ≠ []) (running : Running system.scheduler system.machine.memory)
    (active : system.cr3 = physical hhdmOffset
      (Memory.load64 system.machine.memory (processPagemap (currentProcess system.scheduler))))
    (apart : ∀ proc ∈ procs, FrameApart frame proc)
    (quiet : device.PollsQuietly procs frame)
    (number : Memory.load64 system.machine.memory (intFrameRax frame) = 2#64)
    (named : calledDevice devices system frame = some device)
    (busy : BusyFor hhdmOffset device frame polls system) (enough : polls < fuel) :
    writeCalls devices hhdmOffset fuel system frame =
        some [⟨Memory.load64 system.machine.memory (intFrameRsi frame),
          Memory.load64 system.machine.memory (intFrameRdx frame), system.cr3⟩] ↔
      AsksForSame system frame (processAfter system.scheduler polls) := by
  have served := writeCalls_eq table nonempty running active apart quiet number named busy enough
  have asked : writeOf hhdmOffset system frame (currentProcess system.scheduler) =
      ⟨Memory.load64 system.machine.memory (intFrameRsi frame),
        Memory.load64 system.machine.memory (intFrameRdx frame), system.cr3⟩ := by
    rw [writeOf, callerFrame_current rfl, active]
  rw [served, ← asked, ← @writeOf_eq_iff _ hhdmOffset]
  simp

/-! A busy device -/

/-- A device that is busy as often as its counter says. -/
def busyDevice : Handle Nat where
  poll := fun system =>
    if system.heap = 0 then (deviceReady, system)
    else (deviceBusy, { system with heap := system.heap - 1 })
  read := fun system _ => (0#64, system)
  write := fun system _ _ => system

theorem busyDevice_pollsQuietly : busyDevice.PollsQuietly procs frame where
  registers := by
    intro system
    unfold busyDevice
    dsimp only
    split <;> exact ⟨rfl, fun _ _ => rfl, fun _ _ _ _ => rfl⟩
  cr3 := by
    intro system
    unfold busyDevice
    dsimp only
    split <;> rfl

theorem busyDevice_busyFor (hhdmOffset frame : U64) {system : System Nat} (polls : Nat)
    (count : system.heap = polls) : BusyFor hhdmOffset busyDevice frame polls system := by
  induction polls generalizing system with
  | zero =>
      have polled : busyDevice.poll system = (deviceReady, system) := if_pos count
      rw [BusyFor, polled]
  | succ polls inductionHypothesis =>
      have counting : system.heap ≠ 0 := by
        rw [count]
        exact Nat.succ_ne_zero polls
      have polled : busyDevice.poll system =
          (deviceBusy, { system with heap := system.heap - 1 }) := if_neg counting
      rw [BusyFor, polled]
      refine ⟨rfl, inductionHypothesis ?_⟩
      rw [schedulerContextSwitch_heap, count]
      rfl

/-- Of two processes the first one writes from address 5; their pagemaps are 1 and 2. -/
def writing (busy : Nat) : System Nat where
  heap := busy
  machine := { Machine.cleared 0 with
    memory := fun address =>
      if address = 0x2008#64 ∨ address = 0x2010#64 then 1#8
      else if address = 0x3010#64 ∨ address = 0x10088#64 then 2#8
      else if address = 0x10068#64 then 5#8
      else 0#8 }
  scheduler := bothRun.scheduler
  pidCounter := 2#64
  cr3 := 1#64

/-- After two busy polls it is the first process's turn again. -/
theorem write_serves_caller_iff_twice :
    writeCalls (fun _ => some busyDevice) 0#64 3 (writing 2) 0x10000#64 =
      some [⟨5#64, 0#64, 1#64⟩] := by
  have served := @write_serves_caller_iff Nat 0#64 3 2 (writing 2) [0x2000#64, 0x3000#64]
    0x10000#64 (fun _ => some busyDevice) busyDevice bothRun_table (by decide) (by decide)
    (by decide) bothRun_apart busyDevice_pollsQuietly (by decide) rfl
    (busyDevice_busyFor _ _ 2 rfl) (Nat.lt_succ_self 2)
  exact served.mpr (.inl (by decide))

/-- After one busy poll the write is made for the second process. -/
theorem write_serves_other :
    ¬∀ (devices : U32 → Option (Handle Nat)) (device : Handle Nat) (hhdmOffset : U64)
      (fuel polls : Nat) (system : System Nat) (procs : List U64) (frame : U64),
      ProcessTable system.scheduler procs → procs ≠ [] →
      Running system.scheduler system.machine.memory →
      system.cr3 = physical hhdmOffset
        (Memory.load64 system.machine.memory (processPagemap (currentProcess system.scheduler))) →
      (∀ proc ∈ procs, FrameApart frame proc) →
      device.PollsQuietly procs frame →
      Memory.load64 system.machine.memory (intFrameRax frame) = 2#64 →
      calledDevice devices system frame = some device →
      BusyFor hhdmOffset device frame polls system → polls < fuel →
      writeCalls devices hhdmOffset fuel system frame =
        some [⟨Memory.load64 system.machine.memory (intFrameRsi frame),
          Memory.load64 system.machine.memory (intFrameRdx frame), system.cr3⟩] := by
  intro claim
  have claimed := claim (fun _ => some busyDevice) busyDevice 0#64 2 1 (writing 1)
    [0x2000#64, 0x3000#64] 0x10000#64 bothRun_table (by decide) (by decide) (by decide)
    bothRun_apart busyDevice_pollsQuietly (by decide) rfl (busyDevice_busyFor _ _ 1 rfl)
    (Nat.lt_succ_self 1)
  have served := @writeCalls_eq Nat 0#64 2 1 (writing 1) [0x2000#64, 0x3000#64] 0x10000#64
    (fun _ => some busyDevice) busyDevice bothRun_table (by decide) (by decide) (by decide)
    bothRun_apart busyDevice_pollsQuietly (by decide) rfl (busyDevice_busyFor _ _ 1 rfl)
    (Nat.lt_succ_self 1)
  rw [served] at claimed
  have cr3 := congrArg (List.map WriteCall.cr3) (Option.some.inj claimed)
  exact absurd cr3 (by decide)

end Nekonix
