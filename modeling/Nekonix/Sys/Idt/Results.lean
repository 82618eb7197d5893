import Nekonix.Mm.Vmm.Cleared
import Nekonix.Proc.Scheduler.Dispatch
import Nekonix.Sys.Idt

/-!
# Results of system calls

`idt_handler` drops the result of `syscall_handler`, so the caller finds in `rax`
what the handler stored there: the result of `read()`, and else the number of the
call.  A `write()` that waits may hand the processor to other processes; the
registers of the caller are then in its record.
-/

namespace Nekonix

open FlatMemory

variable {Heap : Type} {hhdmOffset : U64} {fuel : Nat} {system next : System Heap}
  {procs : List U64} {frame caller : U64} {context : Context}
  {devices : U32 → Option (Handle Heap)}

/-- A function of a device touches neither the scheduler nor its records nor the
interrupt frame. -/
structure KeepsRegisters (procs : List U64) (frame : U64) (system next : System Heap) : Prop where
  scheduler : next.scheduler = system.scheduler
  frame : ∀ address, InRange frame intFrameSize address →
    next.machine.memory address = system.machine.memory address
  records : ∀ proc ∈ procs, ∀ address, InRange proc processSize address →
    next.machine.memory address = system.machine.memory address

/-- The functions of the device keep to memory of their own; `read` writes to any
buffer. -/
structure Handle.Quiet (device : Handle Heap) (procs : List U64) (frame : U64) : Prop where
  poll : ∀ system, KeepsRegisters procs frame system (device.poll system).2
  write : ∀ system data size, KeepsRegisters procs frame system (device.write system data size)
  read : ∀ system buffer, (device.read system buffer).2.scheduler = system.scheduler

/-- The registers of `caller` are `context`, wherever they are. -/
structure CallerKept (procs : List U64) (frame caller : U64) (context : Context)
    (system : System Heap) : Prop where
  table : ProcessTable system.scheduler procs
  listed : caller ∈ procs
  running : currentProcess system.scheduler = caller →
    Running system.scheduler system.machine.memory
  registers : readContext system.machine.memory (callerFrame system frame caller) = context

/-- A word of the saved registers. -/
theorem load_field_congr {memory other : Memory} {place otherPlace offset : U64}
    (inside : offset.toNat + 8 ≤ intFrameSize)
    (same : readContext other otherPlace = readContext memory place) :
    Memory.load64 other (otherPlace + offset) = Memory.load64 memory (place + offset) := by
  unfold intFrameSize at inside
  have bytes : ∀ position < 8,
      other (otherPlace + offset + BitVec.ofNat 64 position) =
        memory (place + offset + BitVec.ofNat 64 position) := by
    intro position below
    have byte := congrFun same ⟨offset.toNat + position, by unfold intFrameSize; omega⟩
    have distance : ∀ start : U64, start + offset + BitVec.ofNat 64 position =
        start + BitVec.ofNat 64 (offset.toNat + position) := by
      intro start
      rw [BitVec.add_assoc, BitVec.ofNat_add, BitVec.ofNat_toNat, BitVec.setWidth_eq]
    rw [distance, distance]
    exact byte
  apply BitVec.eq_of_getLsbD_eq
  intro bit bound
  rw [Memory.load64, Memory.load64, getLsbD_load _ 8 _ bound, getLsbD_load _ 8 _ bound,
    bytes _ (by omega)]

theorem callerFrame_current (current : currentProcess system.scheduler = caller) :
    callerFrame system frame caller = frame := if_pos current

theorem callerFrame_waiting (waiting : currentProcess system.scheduler ≠ caller) :
    callerFrame system frame caller = processCtx caller := if_neg waiting

namespace CallerKept

/-- A device leaves the registers alone. -/
theorem device (kept : CallerKept procs frame caller context system)
    (keeps : KeepsRegisters procs frame system next) :
    CallerKept procs frame caller context next := by
  have records : ∀ proc ∈ procs, readProcess next.machine.memory proc =
      readProcess system.machine.memory proc :=
    fun proc membership => readProcess_congr (keeps.records proc membership)
  have registers := kept.registers
  refine
    { table := ?table
      listed := kept.listed
      running := ?running
      registers := ?registers }
  case table =>
    rw [keeps.scheduler]
    exact kept.table
  case running =>
    intro current
    rw [keeps.scheduler] at current ⊢
    have running := kept.running current
    rw [Running, current] at running ⊢
    rw [records caller kept.listed]
    exact running
  case registers =>
    by_cases current : currentProcess system.scheduler = caller
    · have currentNext : currentProcess next.scheduler = caller := by
        rw [keeps.scheduler]
        exact current
      rw [callerFrame_current current] at registers
      rw [callerFrame_current currentNext, ← registers]
      exact readContext_of_same keeps.frame
    · have waitingNext : currentProcess next.scheduler ≠ caller := by
        rw [keeps.scheduler]
        exact current
      rw [callerFrame_waiting current] at registers
      rw [callerFrame_waiting waitingNext, ← registers]
      exact congrArg Process.ctx (records caller kept.listed)

/-- The scheduler saves the registers of the caller where it takes the processor
away, and loads them where it gives it back. -/
theorem switch (hhdmOffset : U64) (kept : CallerKept procs frame caller context system)
    (apart : ∀ proc ∈ procs, FrameApart frame proc) :
    CallerKept procs frame caller context (schedulerContextSwitch hhdmOffset system frame) := by
  have nonempty : procs ≠ [] := List.ne_nil_of_mem kept.listed
  have dispatched := schedulerContextSwitch_spec hhdmOffset kept.table nonempty apart
  generalize schedulerContextSwitch hhdmOffset system frame = next at dispatched
  have registers := kept.registers
  have current : currentProcess next.scheduler = nextProcess system.scheduler := by
    rw [dispatched.scheduler]
    rfl
  have record := dispatched.records caller kept.listed
  have saved : (readProcess next.machine.memory caller).ctx = context := by
    rw [record, Process.dispatched]
    dsimp only
    by_cases had : caller = currentProcess system.scheduler
    · rw [if_pos ⟨had, kept.running had.symm⟩, ← registers, callerFrame_current had.symm]
    · rw [if_neg fun both => had both.1, ← registers, callerFrame_waiting (Ne.symm had)]
      rfl
  refine
    { table := kept.table.dispatch nonempty dispatched
      listed := kept.listed
      running := ?running
      registers := ?registers }
  case running =>
    intro gets
    rw [current] at gets
    rw [Running, current, gets, record, Process.dispatched]
    exact if_pos gets.symm
  case registers =>
    by_cases gets : currentProcess next.scheduler = caller
    · rw [callerFrame_current gets, dispatched.loaded, ← current, gets, saved]
    · rw [callerFrame_waiting gets]
      exact saved

/-- However often `write()` polls, the registers of the caller are kept. -/
theorem wait {device : Handle Heap} (quiet : device.Quiet procs frame)
    (apart : ∀ proc ∈ procs, FrameApart frame proc)
    (kept : CallerKept procs frame caller context system)
    (ready : waitForDevice hhdmOffset device frame fuel system = some next) :
    CallerKept procs frame caller context next := by
  induction fuel generalizing system with
  | zero => cases ready
  | succ fuel inductionHypothesis =>
      have polled := kept.device (quiet.poll system)
      rw [waitForDevice] at ready
      dsimp only at ready
      by_cases busy : (device.poll system).1 = deviceBusy
      · rw [if_pos busy] at ready
        exact inductionHypothesis (polled.switch hhdmOffset apart) ready
      · rw [if_neg busy] at ready
        cases ready
        exact polled

/-- What the caller finds in `rax`. -/
theorem rax (kept : CallerKept procs frame caller context next)
    (entered : readContext system.machine.memory frame = context) :
    Memory.load64 next.machine.memory (intFrameRax (callerFrame next frame caller)) =
      Memory.load64 system.machine.memory (intFrameRax frame) :=
  load_field_congr (by decide) (kept.registers.trans entered.symm)

end CallerKept

theorem quiet_of_get {id : U32} {device : Handle Heap}
    (quiet : ∀ id device, devices id = some device → device.Quiet procs frame)
    (named : deviceGet devices id = some device) : device.Quiet procs frame := by
  unfold deviceGet at named
  split at named
  · cases named
  · exact quiet id device named

/-- The device that the call in `frame` names. -/
def calledDevice (devices : U32 → Option (Handle Heap)) (system : System Heap) (frame : U64) :
    Option (Handle Heap) :=
  deviceGet devices ((Memory.load64 system.machine.memory (intFrameRdi frame)).setWidth 32)

/-- The caller reads the result, and `poll()` of the libc says busy where the device
is. -/
def ResultReached (devices : U32 → Option (Handle Heap)) (system : System Heap)
    (frame result value : U64) : Prop :=
  value = result ∧
    (Memory.load64 system.machine.memory (intFrameRax frame) = 4#64 →
      (value.setWidth 8 = deviceBusy ↔
        ∃ device, calledDevice devices system frame = some device ∧
          (device.poll system).1 = deviceBusy))

/-- A `read()` of a device, or a `poll()` that answers with the number of the call. -/
def ResultStored (devices : U32 → Option (Handle Heap)) (system : System Heap) (frame : U64) :
    Prop :=
  ∃ device, calledDevice devices system frame = some device ∧
    (Memory.load64 system.machine.memory (intFrameRax frame) = 3#64 ∨
      Memory.load64 system.machine.memory (intFrameRax frame) = 4#64 ∧
        (device.poll system).1 = 4#8)

section Calls

variable {result : U64}

/-- A `write()` returns 0, and its caller finds the number 2. -/
theorem syscallHandler_write
    (kept : CallerKept procs frame caller (readContext system.machine.memory frame) system)
    (apart : ∀ proc ∈ procs, FrameApart frame proc)
    (quiet : ∀ id device, devices id = some device → device.Quiet procs frame)
    (number : Memory.load64 system.machine.memory (intFrameRax frame) = 2#64)
    (handled : syscallHandler devices hhdmOffset fuel system frame = some (result, next)) :
    result = 0#64 ∧
      Memory.load64 next.machine.memory (intFrameRax (callerFrame next frame caller)) = 2#64 := by
  unfold syscallHandler at handled
  dsimp only at handled
  rw [number, if_neg (by decide), if_pos rfl] at handled
  cases named : deviceGet devices
      ((Memory.load64 system.machine.memory (intFrameRdi frame)).setWidth 32) with
  | none =>
      rw [named] at handled
      cases handled
      exact ⟨rfl, (kept.rax rfl).trans number⟩
  | some device =>
      rw [named] at handled
      obtain ⟨waited, ready, written⟩ := Option.map_eq_some_iff.mp handled
      cases written
      have isQuiet := quiet_of_get quiet named
      have waitedKept := kept.wait isQuiet apart ready
      exact ⟨rfl, ((waitedKept.device (isQuiet.write _ _ _)).rax rfl).trans number⟩

/-- A `read()` of a device stores its result; without a device the number 3 stays. -/
theorem syscallHandler_read
    (quiet : ∀ id device, devices id = some device → device.Quiet procs frame)
    (number : Memory.load64 system.machine.memory (intFrameRax frame) = 3#64)
    (handled : syscallHandler devices hhdmOffset fuel system frame = some (result, next)) :
    next.scheduler = system.scheduler ∧
      if (calledDevice devices system frame).isSome then
        Memory.load64 next.machine.memory (intFrameRax frame) = result
      else
        result = 0#64 ∧ Memory.load64 next.machine.memory (intFrameRax frame) = 3#64 := by
  unfold syscallHandler at handled
  dsimp only at handled
  rw [number, if_neg (by decide), if_neg (by decide), if_pos rfl] at handled
  unfold calledDevice
  cases named : deviceGet devices
      ((Memory.load64 system.machine.memory (intFrameRdi frame)).setWidth 32) with
  | none =>
      rw [named] at handled
      cases handled
      exact ⟨rfl, rfl, number⟩
  | some device =>
      rw [named] at handled
      cases handled
      refine ⟨(quiet_of_get quiet named).read _ _, ?_⟩
      exact Memory.load64_store64_same _ _ _

/-- A `poll()` returns the state of the device and leaves the number 4. -/
theorem syscallHandler_poll
    (quiet : ∀ id device, devices id = some device → device.Quiet procs frame)
    (number : Memory.load64 system.machine.memory (intFrameRax frame) = 4#64)
    (handled : syscallHandler devices hhdmOffset fuel system frame = some (result, next)) :
    next.scheduler = system.scheduler ∧
      Memory.load64 next.machine.memory (intFrameRax frame) = 4#64 ∧
      ∃ device, calledDevice devices system frame = some device ∧
        result = (device.poll system).1.setWidth 64 := by
  unfold syscallHandler at handled
  dsimp only at handled
  rw [number, if_neg (by decide), if_neg (by decide), if_neg (by decide), if_pos rfl] at handled
  obtain ⟨device, named, answered⟩ := Option.map_eq_some_iff.mp handled
  cases answered
  have keeps := (quiet_of_get quiet named).poll system
  refine ⟨keeps.scheduler, ?_, device, named, rfl⟩
  rw [← number]
  exact load_field_congr (by decide) (readContext_of_same keeps.frame)

end Calls

/-- A system call through the interrupt handler. -/
theorem int80_handled {irqHandlers : U64 → Option (System Heap → (frame : U64) → System Heap)}
    {value : U64}
    (vector : Memory.load64 system.machine.memory (intFrameVector frame) = 0x80#64)
    (called : int80 irqHandlers devices hhdmOffset fuel system frame = some (value, next)) :
    Memory.load64 next.machine.memory
        (intFrameRax (callerFrame next frame (currentProcess system.scheduler))) = value ∧
      ∃ result, syscallHandler devices hhdmOffset fuel system frame = some (result, next) := by
  obtain ⟨after, handled, popped⟩ := Option.map_eq_some_iff.mp called
  obtain ⟨isValue, isNext⟩ := Prod.mk.inj popped
  subst isNext
  unfold idtHandler at handled
  dsimp only at handled
  rw [vector, if_neg (by decide), if_neg (by decide), if_pos rfl] at handled
  obtain ⟨⟨result, answered⟩, returned, same⟩ := Option.map_eq_some_iff.mp handled
  exact ⟨isValue, result, same ▸ returned⟩

/-- The caller of a system call reads its result exactly where a device is read, or
polled and answers 4. -/
theorem syscall_result_reached_iff
    (irqHandlers : U64 → Option (System Heap → (frame : U64) → System Heap))
    (table : ProcessTable system.scheduler procs) (nonempty : procs ≠ [])
    (running : Running system.scheduler system.machine.memory)
    (apart : ∀ proc ∈ procs, FrameApart frame proc)
    (quiet : ∀ id device, devices id = some device → device.Quiet procs frame)
    (vector : Memory.load64 system.machine.memory (intFrameVector frame) = 0x80#64)
    (number : Memory.load64 system.machine.memory (intFrameRax frame) ∈ [2#64, 3#64, 4#64])
    (handled : syscallHandler devices hhdmOffset fuel system frame = some (result, next)) :
    ∃ value, int80 irqHandlers devices hhdmOffset fuel system frame = some (value, next) ∧
      (ResultReached devices system frame result value ↔ ResultStored devices system frame) := by
  let caller := currentProcess system.scheduler
  have returned : idtHandler irqHandlers devices hhdmOffset fuel system frame = some next := by
    unfold idtHandler
    dsimp only
    rw [vector, if_neg (by decide), if_neg (by decide), if_pos rfl, handled]
    rfl
  refine ⟨_, by rw [int80, returned]; rfl, ?_⟩
  simp only [List.mem_cons, List.not_mem_nil, or_false] at number
  unfold ResultReached ResultStored
  rcases number with write | read | poll
  · have kept : CallerKept procs frame caller (readContext system.machine.memory frame) system :=
      { table
        listed := table.current_mem nonempty
        running := fun _ => running
        registers := by rw [callerFrame_current rfl] }
    obtain ⟨isZero, value⟩ := syscallHandler_write kept apart quiet write handled
    rw [isZero, value, write]
    simp
  · obtain ⟨sameScheduler, value⟩ := syscallHandler_read quiet read handled
    have current : currentProcess next.scheduler = caller := by rw [sameScheduler]
    rw [callerFrame_current current, read]
    cases named : calledDevice devices system frame with
    | none =>
        rw [named, if_neg (by simp)] at value
        rw [value.1, value.2]
        simp
    | some device =>
        rw [named, Option.isSome_some, if_pos rfl] at value
        rw [value]
        simp
  · obtain ⟨sameScheduler, value, device, named, state⟩ := syscallHandler_poll quiet poll handled
    have current : currentProcess next.scheduler = caller := by rw [sameScheduler]
    rw [callerFrame_current current, value, state, poll, named]
    have widen : ∀ answer : U8, 4#64 = answer.setWidth 64 ↔ answer = 4#8 := by decide
    constructor
    · rintro ⟨same, -⟩
      exact ⟨device, rfl, Or.inr ⟨rfl, (widen _).mp same⟩⟩
    · rintro ⟨_, ⟨⟩, isRead | ⟨-, answer⟩⟩
      · cases isRead
      · refine ⟨(widen _).mpr answer, fun _ => ?_⟩
        simp [answer, deviceBusy]

/-! The libc -/

/-- Storing a field of the frame leaves the others. -/
theorem load_otherField (memory : Memory) (frame value : U64) {offset other : U64}
    (apart : 8 ≤ (other - offset).toNat ∧ (other - offset).toNat + 8 ≤ 2 ^ 64) :
    Memory.load64 (Memory.store64 memory (frame + other) value) (frame + offset) =
      Memory.load64 memory (frame + offset) := by
  have distance : frame + other - (frame + offset) = other - offset := by bv_omega
  apply Memory.load64_store64_separate
  apply separate_of_distance
  · rw [distance]
    exact apart.1
  · rw [distance]
    exact apart.2

/-- What the interrupt handler finds of the registers that `syscall` loads. -/
theorem syscallFrame_registers (memory : Memory) (frame number arg1 arg2 arg3 arg4 arg5 arg6 : U64) :
    let entered := syscallFrame memory frame number arg1 arg2 arg3 arg4 arg5 arg6
    Memory.load64 entered (intFrameVector frame) = 0x80#64 ∧
      Memory.load64 entered (intFrameRax frame) = number ∧
      Memory.load64 entered (intFrameRdi frame) = arg1 ∧
      Memory.load64 entered (intFrameRsi frame) = arg2 ∧
      Memory.load64 entered (intFrameRdx frame) = arg3 := by
  simp (disch := decide) only [syscallFrame, intFrameVector, intFrameRax, intFrameRdi, intFrameRsi,
    intFrameRdx, intFrameRcx, intFrameR8, intFrameR9, load_otherField,
    Memory.load64_store64_same, and_self]

/-- `poll()` of the libc answers 4 whatever the device says, so it never says busy. -/
theorem libcPoll_never_busy
    (irqHandlers : U64 → Option (System Heap → (frame : U64) → System Heap))
    (quiet : ∀ id device, devices id = some device → device.Quiet procs frame)
    {id : U32} {answer : U8}
    (returned : libcPoll irqHandlers devices hhdmOffset fuel system frame id =
      some (answer, next)) : answer ≠ deviceBusy := by
  let entered : System Heap :=
    { system with
      machine := { system.machine with
        memory := syscallFrame system.machine.memory frame 4#64 (id.setWidth 64) 0#64 0#64 0#64
          0#64 0#64 } }
  obtain ⟨isVector, isNumber, -⟩ := syscallFrame_registers system.machine.memory frame 4#64
    (id.setWidth 64) 0#64 0#64 0#64 0#64 0#64
  have vector : Memory.load64 entered.machine.memory (intFrameVector frame) = 0x80#64 := isVector
  have number : Memory.load64 entered.machine.memory (intFrameRax frame) = 4#64 := isNumber
  obtain ⟨⟨value, after⟩, called, answered⟩ := Option.map_eq_some_iff.mp returned
  have through : int80 irqHandlers devices hhdmOffset fuel entered frame = some (value, after) :=
    called
  obtain ⟨popped, result, handled⟩ := int80_handled vector through
  obtain ⟨sameScheduler, stays, -⟩ := syscallHandler_poll quiet number handled
  have current : currentProcess after.scheduler = currentProcess entered.scheduler := by
    rw [sameScheduler]
  rw [callerFrame_current current, stays] at popped
  have isAnswer : value.setWidth 8 = answer := congrArg Prod.fst answered
  rw [← isAnswer, ← popped]
  decide

/-! A ready device -/

/-- A device that is always ready. -/
def readyDevice : Handle Unit where
  poll := fun system => (0#8, system)
  read := fun system _ => (0#64, system)
  write := fun system _ _ => system

theorem readyDevice_quiet : readyDevice.Quiet procs frame where
  poll := fun _ => ⟨rfl, fun _ _ => rfl, fun _ _ _ _ => rfl⟩
  write := fun _ _ _ => ⟨rfl, fun _ _ => rfl, fun _ _ _ _ => rfl⟩
  read := fun _ _ => rfl

/-- The only process, with its record at `0x2000`, polls device 0. -/
def polling : System Unit where
  heap := ()
  machine :=
    { Machine.cleared 0 with
      memory := fun address =>
        if address = 0x10088#64 then 4#8
        else if address = 0x10090#64 then 0x80#8
        else if address = 0x2008#64 then 1#8
        else 0#8 }
  scheduler := { processes := fun _ => 0x2000#64, processCount := 1#32, currentIndex := 0#32 }
  pidCounter := 1#64
  cr3 := 0#64

theorem polling_table : ProcessTable polling.scheduler [0x2000#64] where
  count := rfl
  bound := by decide
  listed := by
    intro index proc found
    cases index with
    | zero => exact Option.some.inj found
    | succ index => cases found
  current := fun _ => Nat.zero_lt_one
  nonnull := by simp
  nodup := by decide
  separate := by
    intro proc membership other otherIn different
    rw [List.mem_singleton] at membership otherIn
    exact (different (membership.trans otherIn.symm)).elim

theorem polling_apart : ∀ proc ∈ [0x2000#64], FrameApart 0x10000#64 proc := by
  intro proc membership address inFrame inRecord
  rw [List.mem_singleton] at membership
  subst membership
  unfold InRange intFrameSize processSize at *
  bv_omega

theorem polling_handled : syscallHandler (fun _ => some readyDevice) 0#64 0 polling 0x10000#64 =
    some (0#64, polling) := rfl

theorem syscall_result_reached_iff_polling :
    ∃ value, int80 (fun _ => none) (fun _ => some readyDevice) 0#64 0 polling 0x10000#64 =
        some (value, polling) ∧
      ¬ResultReached (fun _ => some readyDevice) polling 0x10000#64 0#64 value := by
  have quiet : ∀ (id : U32) device, some readyDevice = some device →
      device.Quiet [0x2000#64] 0x10000#64 := by
    rintro _ _ ⟨⟩
    exact readyDevice_quiet
  obtain ⟨value, returned, reached⟩ := syscall_result_reached_iff (fun _ => none) polling_table
    (by decide) (by decide) polling_apart quiet (by decide) (by decide) polling_handled
  refine ⟨value, returned, fun claimed => ?_⟩
  obtain ⟨device, named, isRead | ⟨-, answer⟩⟩ := reached.mp claimed
  · exact absurd isRead (by decide)
  · cases named
    cases answer

/-- The caller polls a ready device and finds the number of its call. -/
theorem poll_result_lost :
    ¬∀ (irqHandlers : U64 → Option (System Unit → (frame : U64) → System Unit))
      (devices : U32 → Option (Handle Unit)) (hhdmOffset : U64) (fuel : Nat)
      (system next : System Unit) (procs : List U64) (frame result : U64),
      ProcessTable system.scheduler procs → procs ≠ [] →
      Running system.scheduler system.machine.memory →
      (∀ proc ∈ procs, FrameApart frame proc) →
      (∀ id device, devices id = some device → device.Quiet procs frame) →
      Memory.load64 system.machine.memory (intFrameVector frame) = 0x80#64 →
      Memory.load64 system.machine.memory (intFrameRax frame) ∈ [2#64, 3#64, 4#64] →
      syscallHandler devices hhdmOffset fuel system frame = some (result, next) →
      ∃ value, int80 irqHandlers devices hhdmOffset fuel system frame = some (value, next) ∧
        ResultReached devices system frame result value := by
  intro claim
  have quiet : ∀ (id : U32) device, some readyDevice = some device →
      device.Quiet [0x2000#64] 0x10000#64 := by
    rintro _ _ ⟨⟩
    exact readyDevice_quiet
  obtain ⟨value, returned, same, -⟩ := claim (fun _ => none) (fun _ => some readyDevice) 0#64 0
    polling polling [0x2000#64] 0x10000#64 0#64 polling_table (by decide) (by decide) polling_apart
    quiet (by decide) (by decide) polling_handled
  have number : (int80 (fun _ => none) (fun _ => some readyDevice) 0#64 0 polling
      0x10000#64).map Prod.fst = some 4#64 := by decide
  rw [returned, same] at number
  cases number

end Nekonix
