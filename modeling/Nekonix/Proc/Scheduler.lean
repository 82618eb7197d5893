import Nekonix.Proc.Elf

/-!
# The scheduler of `proc/scheduler.c`

The `process_t` records and the interrupt frames lie in memory, at the offsets
of their fields.  The file system and the kernel heap are a parameter with a
state of its own.  Log output and the tick counters are left out.
-/

namespace Nekonix

/-! The records -/

/-- `process_state_t` -/
inductive ProcessState where
  | new
  | running
  | terminated
deriving DecidableEq

/-- The value of the enumerator. -/
def ProcessState.code : ProcessState → U32
  | new => 0#32
  | running => 1#32
  | terminated => 2#32

/-- `sizeof(int_frame_t)` -/
def intFrameSize : Nat := 200

/-! The fields of the packed `int_frame_t` that the kernel reads or writes -/

def intFrameRdi (frame : U64) : U64 := frame + 96#64
def intFrameRsi (frame : U64) : U64 := frame + 104#64
def intFrameRdx (frame : U64) : U64 := frame + 112#64
def intFrameRax (frame : U64) : U64 := frame + 136#64
def intFrameRip (frame : U64) : U64 := frame + 160#64
def intFrameCs (frame : U64) : U64 := frame + 168#64
def intFrameRflags (frame : U64) : U64 := frame + 176#64
def intFrameRsp (frame : U64) : U64 := frame + 184#64
def intFrameSs (frame : U64) : U64 := frame + 192#64

/-! The fields of `process_t` -/

def processPid (proc : U64) : U64 := proc
def processState (proc : U64) : U64 := proc + 8#64
def processPagemap (proc : U64) : U64 := proc + 16#64
def processCtx (proc : U64) : U64 := proc + 24#64
def processName (proc : U64) : U64 := proc + 224#64

/-- `MAX_PROCESSES` -/
def maxProcesses : U32 := 256#32

/-- `scheduler_t` -/
structure Scheduler where
  processes : U32 → U64
  processCount : U32
  currentIndex : U32

/-- `scheduler_init` -/
def schedulerInit (scheduler : Scheduler) : Scheduler :=
  { scheduler with processCount := 0#32, currentIndex := 0#32 }

/-- What the scheduler works on: `heap` is the state of the file system and the
kernel heap, `cr3` the pagemap in use. -/
structure System (Heap : Type) where
  heap : Heap
  machine : Machine
  scheduler : Scheduler
  pidCounter : U64
  cr3 : U64

/-- The calls into the file system and the kernel heap. -/
structure Files (Heap : Type) where
  /-- `open(path, READ_ONLY)` -/
  openFile : Heap × Machine → (path : U64) → U64 × (Heap × Machine)
  /-- `hvfs_permission_check(file->vnode, 0, VNODE_PERMS_OWNER_EXECUTE)` -/
  permissionCheck : Heap × Machine → (file : U64) → Bool
  /-- `file->vnode->size` -/
  vnodeSize : Heap × Machine → (file : U64) → U64
  kmalloc : Heap × Machine → (size : U64) → U64 × (Heap × Machine)
  read : Heap × Machine → (file buffer size : U64) → Heap × Machine
  close : Heap × Machine → (file : U64) → Heap × Machine

variable {Heap : Type}

/-! Creation -/

/-- The fields that `process_create` sets before it requests the stack. -/
def processHead (memory : Memory) (proc pid entry : U64) : Memory :=
  let memory := Memory.store64 memory (processPid proc) pid
  let memory := Memory.store32 memory (processState proc) ProcessState.new.code
  Memory.store64 memory (intFrameRip (processCtx proc)) entry

/-- The fields that `process_create` sets after it has checked the stack. -/
def processRest (memory : Memory) (proc pagemap name : U64) : Memory :=
  let memory := Memory.store64 memory (intFrameCs (processCtx proc)) 0x08#64
  let memory := Memory.store64 memory (intFrameSs (processCtx proc)) 0x10#64
  let memory := Memory.store64 memory (intFrameRflags (processCtx proc)) 0x202#64
  let memory := Memory.store64 memory (processPagemap proc) pagemap
  Memory.store64 memory (processName proc) name

/-- `process_create`: the record and the state after the call. -/
def processCreate (hhdmOffset : U64) (system : System Heap) (entry pagemap name : U64) :
    U64 × System Heap :=
  let (page, machine) := pmmRequestPage hhdmOffset system.machine
  let proc := higherHalf hhdmOffset page
  if proc = 0#64 then
    (0#64, { system with machine })
  else
    let memory := processHead machine.memory proc system.pidCounter entry
    let (stack, machine) := pmmRequestPage hhdmOffset { machine with memory }
    let rsp := higherHalf hhdmOffset stack + 4095#64
    let memory := Memory.store64 machine.memory (intFrameRsp (processCtx proc)) rsp
    let system := { system with pidCounter := system.pidCounter + 1#64 }
    if Memory.load64 memory (intFrameRsp (processCtx proc)) = 0#64 then
      (0#64, { system with machine := pmmFreePage { machine with memory } proc })
    else
      let memory := processRest memory proc pagemap name
      (proc, { system with machine := { machine with memory } })

/-- `scheduler.processes[scheduler.process_count++] = proc;` -/
def Scheduler.push (scheduler : Scheduler) (proc : U64) : Scheduler :=
  { scheduler with
    processes := Function.update scheduler.processes scheduler.processCount proc
    processCount := scheduler.processCount + 1#32 }

def schedulerCreateProcess (hhdmOffset kernelPagemap : U64) (system : System Heap)
    (entry name : U64) : U64 × System Heap :=
  if system.scheduler.processCount ≥ maxProcesses then
    (-1#64, system)
  else
    let (pagemap, machine) := vmmNewPagemap hhdmOffset kernelPagemap system.machine
    let (proc, system) := processCreate hhdmOffset { system with machine } entry pagemap name
    (Memory.load64 system.machine.memory (processPid proc),
      { system with scheduler := system.scheduler.push proc })

/-- The first half of `scheduler_create_elf_process`: the opened file and the
buffer with its contents. -/
def fetchFile (files : Files Heap) (state : Heap × Machine) (path : U64) :
    Option (U64 × U64) × (Heap × Machine) :=
  let (init, state) := files.openFile state path
  if init = 0#64 then
    (none, state)
  else if files.permissionCheck state init = false then
    (none, state)
  else
    let (data, state) := files.kmalloc state (files.vnodeSize state init)
    (some (init, data), files.read state init data (files.vnodeSize state init))

def schedulerCreateElfProcess (files : Files Heap) (hhdmOffset kernelPagemap : U64)
    (system : System Heap) (path name : U64) : U64 × System Heap :=
  if system.scheduler.processCount ≥ maxProcesses then
    (0#64, system)
  else
    match fetchFile files (system.heap, system.machine) path with
    | (none, heap, machine) => (0#64, { system with heap, machine })
    | (some (init, data), heap, machine) =>
        let (pagemap, machine) := vmmNewPagemap hhdmOffset kernelPagemap machine
        let (entry, machine) := elfLoad hhdmOffset machine data pagemap
        if entry = 0#64 then
          (0#64, { system with heap, machine })
        else
          let (proc, system) :=
            processCreate hhdmOffset { system with heap, machine } entry pagemap name
          let system := { system with scheduler := system.scheduler.push proc }
          let (heap, machine) := files.close (system.heap, system.machine) init
          (Memory.load64 machine.memory (processPid proc), { system with heap, machine })

/-! Dispatch -/

/-- `scheduler.processes[scheduler.current_index]` -/
def currentProcess (scheduler : Scheduler) : U64 := scheduler.processes scheduler.currentIndex

/-- `(scheduler.current_index + 1) % scheduler.process_count` -/
def nextIndex (scheduler : Scheduler) : U32 :=
  (scheduler.currentIndex + 1#32) % scheduler.processCount

def nextProcess (scheduler : Scheduler) : U64 := scheduler.processes (nextIndex scheduler)

/-- Saving the interrupt frame in the current process, if that one is running. -/
def saveCurrentProcess (memory : Memory) (scheduler : Scheduler) (frame : U64) : Memory :=
  if currentProcess scheduler ≠ 0#64 ∧
      Memory.load32 memory (processState (currentProcess scheduler)) =
        ProcessState.running.code then
    memcpy memory (processCtx (currentProcess scheduler)) frame intFrameSize
  else memory

/-- `scheduler_context_switch` -/
def schedulerContextSwitch (hhdmOffset : U64) (system : System Heap) (frame : U64) : System Heap :=
  if system.scheduler.processCount = 0#32 then
    system
  else
    let memory := saveCurrentProcess system.machine.memory system.scheduler frame
    let scheduler := { system.scheduler with currentIndex := nextIndex system.scheduler }
    let next := nextProcess system.scheduler
    if next ≠ 0#64 then
      let memory := Memory.store32 memory (processState next) ProcessState.running.code
      let memory := memcpy memory frame (processCtx next) intFrameSize
      { system with
        machine := { system.machine with memory }
        scheduler
        cr3 := vmmSwitchPagemap hhdmOffset (Memory.load64 memory (processPagemap next)) }
    else
      { system with machine := { system.machine with memory }, scheduler }

/-- `timer_interrupt_handler` -/
def timerInterruptHandler (hhdmOffset : U64) (system : System Heap) (frame : U64) : System Heap :=
  schedulerContextSwitch hhdmOffset system frame

/-! Termination -/

/-- `process_destroy` -/
def processDestroy (machine : Machine) (proc : U64) : Machine :=
  let machine := vmmDestroyPagemap machine (Memory.load64 machine.memory (processPagemap proc))
  let machine := pmmFreePage machine (Memory.load64 machine.memory (processPagemap proc))
  let machine := pmmFreePage machine
    (Memory.load64 machine.memory (intFrameRsp (processCtx proc)))
  pmmFreePage machine proc

/-- `for (; i < process_count - 1; ++i) processes[i] = processes[i + 1];`, where
`last` is `process_count - 1`. -/
def shiftProcesses (last : U32) : (fuel : Nat) → (processes : U32 → U64) → (i : U32) → U32 → U64
  | 0, processes, _ => processes
  | fuel + 1, processes, i =>
      if i < last then
        shiftProcesses last fuel (Function.update processes i (processes (i + 1#32))) (i + 1#32)
      else
        processes

/-- `scheduler_terminate_current_process`; `false` says that the call stays in
`scheduler_idle`. -/
def schedulerTerminateCurrentProcess (system : System Heap) : Bool × System Heap :=
  let scheduler := system.scheduler
  let current := currentProcess scheduler
  let memory := system.machine.memory
  if Memory.load32 memory (processState current) ≠ ProcessState.running.code then
    (true, system)
  else
    let memory := Memory.store32 memory (processState current) ProcessState.terminated.code
    let machine := processDestroy { system.machine with memory } current
    let processes := shiftProcesses (scheduler.processCount - 1#32) (2 ^ 32) scheduler.processes
      scheduler.currentIndex
    let processCount := scheduler.processCount - 1#32
    if processCount = 0#32 then
      (false, { system with machine, scheduler := { scheduler with processes, processCount } })
    else
      (true,
        { system with
          machine
          scheduler :=
            { processes, processCount, currentIndex := scheduler.currentIndex % processCount } })

end Nekonix
