import Nekonix.Sys.Syscall

/-!
# Interrupts

`idt_handler` of `sys/idt.c` and the system call stubs of the libc.  The handlers
of the IRQs are a parameter.  Log output, the interrupt controller and the reports
of fatal exceptions are left out.
-/

namespace Nekonix

def intFrameR9 (frame : U64) : U64 := frame + 72#64
def intFrameR8 (frame : U64) : U64 := frame + 80#64
def intFrameRcx (frame : U64) : U64 := frame + 120#64
def intFrameVector (frame : U64) : U64 := frame + 144#64

/-- `IRQ_BASE` -/
def irqBase : U64 := 0x20#64

/-- `IRQ_COUNT` -/
def irqCount : U64 := 16#64

/-- `exception_info[vector].fatal` -/
def exceptionFatal (vector : U64) : Bool :=
  !(vector = 1#64 || vector = 3#64)

variable {Heap : Type}

/-- `idt_handler`, with `none` where it does not return: it halts the system, or
`syscall_handler` does not return. -/
def idtHandler (irqHandlers : U64 → Option (System Heap → (frame : U64) → System Heap))
    (devices : U32 → Option (Handle Heap)) (hhdmOffset : U64) (fuel : Nat)
    (system : System Heap) (frame : U64) : Option (System Heap) :=
  let vector := Memory.load64 system.machine.memory (intFrameVector frame)
  if vector < 32#64 then
    if exceptionFatal vector then none else some system
  else if vector ≥ irqBase ∧ vector < irqBase + irqCount then
    match irqHandlers (vector - irqBase) with
    | some handler => some (handler system frame)
    | none => some system
  else if vector = 0x80#64 then
    -- The result of `syscall_handler` is dropped.
    (syscallHandler devices hhdmOffset fuel system frame).map Prod.snd
  else
    some system

/-! The libc -/

/-- Where the registers of `caller` are: in the interrupt frame while it has the
processor, and in its record otherwise. -/
def callerFrame (system : System Heap) (frame caller : U64) : U64 :=
  if currentProcess system.scheduler = caller then frame else processCtx caller

/-- `int $0x80`, and what `rax` is when the caller goes on. -/
def int80 (irqHandlers : U64 → Option (System Heap → (frame : U64) → System Heap))
    (devices : U32 → Option (Handle Heap)) (hhdmOffset : U64) (fuel : Nat)
    (system : System Heap) (frame : U64) : Option (U64 × System Heap) :=
  (idtHandler irqHandlers devices hhdmOffset fuel system frame).map fun next =>
    (Memory.load64 next.machine.memory
      (intFrameRax (callerFrame next frame (currentProcess system.scheduler))), next)

/-- The registers that `syscall` loads, as the interrupt stub saves them. -/
def syscallFrame (memory : Memory) (frame number arg1 arg2 arg3 arg4 arg5 arg6 : U64) : Memory :=
  let memory := Memory.store64 memory (intFrameVector frame) 0x80#64
  let memory := Memory.store64 memory (intFrameRax frame) number
  let memory := Memory.store64 memory (intFrameRdi frame) arg1
  let memory := Memory.store64 memory (intFrameRsi frame) arg2
  let memory := Memory.store64 memory (intFrameRdx frame) arg3
  let memory := Memory.store64 memory (intFrameRcx frame) arg4
  let memory := Memory.store64 memory (intFrameR8 frame) arg5
  Memory.store64 memory (intFrameR9 frame) arg6

section Libc

variable (irqHandlers : U64 → Option (System Heap → (frame : U64) → System Heap))
  (devices : U32 → Option (Handle Heap)) (hhdmOffset : U64) (fuel : Nat)
  (system : System Heap) (frame : U64)

/-- `syscall`, where the interrupt stub saves the registers at `frame`. -/
def libcSyscall (number arg1 arg2 arg3 arg4 arg5 arg6 : U64) : Option (U64 × System Heap) :=
  let memory := syscallFrame system.machine.memory frame number arg1 arg2 arg3 arg4 arg5 arg6
  int80 irqHandlers devices hhdmOffset fuel
    { system with machine := { system.machine with memory } } frame

def libcWrite (id : U32) (data size : U64) : Option (System Heap) :=
  (libcSyscall irqHandlers devices hhdmOffset fuel system frame 2#64 (id.setWidth 64) data size
    0#64 0#64 0#64).map Prod.snd

def libcRead (id : U32) (out : U64) : Option (U64 × System Heap) :=
  libcSyscall irqHandlers devices hhdmOffset fuel system frame 3#64 (id.setWidth 64) out 0#64
    0#64 0#64 0#64

def libcPoll (id : U32) : Option (U8 × System Heap) :=
  (libcSyscall irqHandlers devices hhdmOffset fuel system frame 4#64 (id.setWidth 64) 0#64 0#64
    0#64 0#64 0#64).map fun (result, next) => (result.setWidth 8, next)

end Libc

end Nekonix
