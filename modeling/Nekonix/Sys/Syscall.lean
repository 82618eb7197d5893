import Nekonix.Proc.Scheduler

/-!
# System calls

`syscall_handler` of `sys/syscall.c` and the device table of `proc/manager.c`.
The functions of a device are a parameter.
-/

namespace Nekonix

/-- `DEVICE_READY` -/
def deviceReady : U8 := 0#8

/-- `DEVICE_BUSY` -/
def deviceBusy : U8 := 1#8

/-- The functions of a `handle_t`. -/
structure Handle (Heap : Type) where
  poll : System Heap → U8 × System Heap
  read : System Heap → (buffer : U64) → U64 × System Heap
  write : System Heap → (data size : U64) → System Heap

/-- `MAX_DEVICES` -/
def maxDevices : U32 := 256#32

variable {Heap : Type}

def deviceGet (devices : U32 → Option (Handle Heap)) (id : U32) : Option (Handle Heap) :=
  if id ≥ maxDevices then none else devices id

/-- `while (device->poll() == DEVICE_BUSY) scheduler_context_switch(frame);`, with
`none` while the device is still busy after `fuel` polls. -/
def waitForDevice (hhdmOffset : U64) (device : Handle Heap) (frame : U64) :
    (fuel : Nat) → System Heap → Option (System Heap)
  | 0, _ => none
  | fuel + 1, system =>
      let (state, system) := device.poll system
      if state = deviceBusy then
        waitForDevice hhdmOffset device frame fuel
          (schedulerContextSwitch hhdmOffset system frame)
      else
        some system

/-- `syscall_handler`: its result and the state after it, or `none` where it does
not return: the last process has ended, the device stays busy, or `poll()` is
called through `NULL`. -/
def syscallHandler (devices : U32 → Option (Handle Heap)) (hhdmOffset : U64) (fuel : Nat)
    (system : System Heap) (frame : U64) : Option (U64 × System Heap) :=
  let memory := system.machine.memory
  let rax := Memory.load64 memory (intFrameRax frame)
  let rdi := Memory.load64 memory (intFrameRdi frame)
  let rsi := Memory.load64 memory (intFrameRsi frame)
  if rax = 1#64 then
    let (returns, system) := schedulerTerminateCurrentProcess system
    if returns then some (0#64, system) else none
  else if rax = 2#64 then
    match deviceGet devices (rdi.setWidth 32) with
    | none => some (0#64, system)
    | some device =>
        (waitForDevice hhdmOffset device frame fuel system).map fun system =>
          let memory := system.machine.memory
          (0#64, device.write system (Memory.load64 memory (intFrameRsi frame))
            (Memory.load64 memory (intFrameRdx frame)))
  else if rax = 3#64 then
    match deviceGet devices (rdi.setWidth 32) with
    | none => some (0#64, system)
    | some device =>
        let (result, system) := device.read system rsi
        some (result,
          { system with
            machine := { system.machine with
              memory := Memory.store64 system.machine.memory (intFrameRax frame) result } })
  else if rax = 4#64 then
    (deviceGet devices (rdi.setWidth 32)).map fun device =>
      let (state, system) := device.poll system
      (state.setWidth 64, system)
  else
    some (0#64, system)

end Nekonix
