import Nekonix.Library.InterruptController
import Nekonix.Lib.Types

/-!
# The interrupt controllers of `sys/pic.c`

What a function writes to the ports is listed in order, so that devices and interrupts may come
between any two writes.  The controllers are those of `InterruptController`.  The waits behind
the writes and the log output are left out.
-/

namespace Nekonix

open InterruptController

def pic1Command : U16 := 0x20#16
def pic1Data : U16 := 0x21#16
def pic2Command : U16 := 0xA0#16
def pic2Data : U16 := 0xA1#16

/-- `PIC_ICW1_INITIALIZE | PIC_ICW1_ICW4` -/
def picIcw1 : U8 := 0x10#8 ||| 0x01#8

/-- `PIC_ICW4_8086` -/
def picIcw4 : U8 := 0x01#8

/-- `PIC_ICW4_AUTO_EOI` -/
def picIcw4AutoEoi : U8 := 0x02#8

/-- `PIC_CMD_END_OF_INTERRUPT` -/
def picCmdEndOfInterrupt : U8 := 0x20#8

/-- `PIC_CMD_READ_IRR` -/
def picCmdReadIrr : U8 := 0x0A#8

/-- `PIC_CMD_READ_ISR` -/
def picCmdReadIsr : U8 := 0x0B#8

/-- `PIC_REMAP_OFFSET` -/
def picRemapOffset : U8 := 0x20#8

/-! The ports -/

/-- `outb(port, value)` -/
structure PortWrite where
  port : U16
  value : U8
deriving DecidableEq

/-- What a write does to the controllers. -/
def outb (pair : Pair) (write : PortWrite) : Pair :=
  if write.port = pic1Command then { pair with master := pair.master.command write.value }
  else if write.port = pic1Data then { pair with master := pair.master.data write.value }
  else if write.port = pic2Command then { pair with slave := pair.slave.command write.value }
  else if write.port = pic2Data then { pair with slave := pair.slave.data write.value }
  else pair

/-- `inb(port)`; nothing else of the machine is read here. -/
def inb (pair : Pair) (port : U16) : U8 :=
  if port = pic1Command then pair.master.readCommand
  else if port = pic1Data then pair.master.readData
  else if port = pic2Command then pair.slave.readCommand
  else if port = pic2Data then pair.slave.readData
  else 0xff#8

/-! The driver -/

/-- `_pic_mask`, and what has been written to the ports. -/
structure PicDriver where
  picMask : U16
  writes : List PortWrite
deriving DecidableEq

/-- Further writes. -/
def PicDriver.out (driver : PicDriver) (writes : List PortWrite) : PicDriver :=
  { driver with writes := driver.writes ++ writes }

/-- `pic_set_mask` -/
def picSetMask (driver : PicDriver) (mask : U16) : PicDriver :=
  { driver with picMask := mask }.out
    [⟨pic1Data, mask.setWidth 8⟩, ⟨pic2Data, (mask >>> 8).setWidth 8⟩]

/-- `pic_configure` -/
def picConfigure (driver : PicDriver) (offsetPic1 offsetPic2 : U8) (autoEoi : Bool) : PicDriver :=
  let driver := picSetMask driver 0xFFFF#16
  let icw4 := if autoEoi then picIcw4 ||| picIcw4AutoEoi else picIcw4
  let driver := driver.out
    [⟨pic1Command, picIcw1⟩, ⟨pic2Command, picIcw1⟩,
      ⟨pic1Data, offsetPic1⟩, ⟨pic2Data, offsetPic2⟩,
      ⟨pic1Data, 0x04#8⟩, ⟨pic2Data, 0x02#8⟩,
      ⟨pic1Data, icw4⟩, ⟨pic2Data, icw4⟩]
  picSetMask driver 0xFFFF#16

/-- The writes of `pic_send_end_of_interrupt`. -/
def picSendEndOfInterrupt (irq : Nat) : List PortWrite :=
  (if irq ≥ 8 then [⟨pic2Command, picCmdEndOfInterrupt⟩] else []) ++
    [⟨pic1Command, picCmdEndOfInterrupt⟩]

/-- `pic_disable` -/
def picDisable (driver : PicDriver) : PicDriver := picSetMask driver 0xFFFF#16

/-- `pic_enable` -/
def picEnable (driver : PicDriver) : PicDriver :=
  picSetMask (picConfigure driver picRemapOffset (picRemapOffset + 8#8) false) 0xFFFF#16

/-- `pic_mask` -/
def picMask (driver : PicDriver) (irq : Nat) : PicDriver :=
  picSetMask driver (driver.picMask ||| (1#16 <<< irq))

/-- `pic_unmask` -/
def picUnmask (driver : PicDriver) (irq : Nat) : PicDriver :=
  picSetMask driver (driver.picMask &&& ~~~(1#16 <<< irq))

/-- `pic_init` -/
def picInit (driver : PicDriver) : PicDriver :=
  let driver := picConfigure driver picRemapOffset (picRemapOffset + 8#8) false
  (List.range 16).foldl picMask driver

/-- `pic_read_irq_request_register`, which reads the data ports. -/
def picReadIrqRequestRegister (pair : Pair) : U16 × Pair :=
  let pair := outb pair ⟨pic1Command, picCmdReadIrr⟩
  let irr := (inb pair pic1Data).setWidth 16
  let pair := outb pair ⟨pic2Command, picCmdReadIrr⟩
  (irr ||| (inb pair pic2Data).setWidth 16 <<< 8, pair)

/-- `pic_read_in_service_register` -/
def picReadInServiceRegister (pair : Pair) : U16 × Pair :=
  let pair := outb pair ⟨pic1Command, picCmdReadIsr⟩
  let isr := (inb pair pic1Data).setWidth 16
  let pair := outb pair ⟨pic2Command, picCmdReadIsr⟩
  (isr ||| (inb pair pic2Data).setWidth 16 <<< 8, pair)

/-! The system -/

inductive PicCall where
  | disable
  | enable
  | init
  | mask (irq : Nat)
  | unmask (irq : Nat)

def PicCall.perform (driver : PicDriver) : PicCall → PicDriver
  | .disable => picDisable driver
  | .enable => picEnable driver
  | .init => picInit driver
  | .mask irq => picMask driver irq
  | .unmask irq => picUnmask driver irq

/-- `_pic_mask`, the writes of the current call that are still to come, and the controllers. -/
structure PicState where
  picMask : U16
  writes : List PortWrite
  pair : Pair

/-- `idt_init` begins: the calls of `pic_disable` and `pic_enable` in it. -/
def PicState.boot (picMask : U16) (pair : Pair) : PicState :=
  let driver := picEnable (picDisable ⟨picMask, []⟩)
  ⟨driver.picMask, driver.writes, pair⟩

/-- The number of a line as `idt_handler` has it. -/
def irqOf (line : Line) : Nat := (if line.ofSlave then 8 else 0) + line.line.val

/-- The processor takes the interrupt of `line`.  The end is announced by `idt_handler`, and before
that by the registered handler where it does so itself, as those of the timer and the keyboard. -/
def takeInterrupt (pair : Pair) (line : Line) (handlerEnds : Bool) : Pair :=
  let pair := pair.acknowledge line
  let pair := if handlerEnds then (picSendEndOfInterrupt (irqOf line)).foldl outb pair else pair
  (picSendEndOfInterrupt (irqOf line)).foldl outb pair

inductive PicAction where
  | call (call : PicCall)
  | outb
  | request (line : Line)
  | interrupt (line : Line) (handlerEnds : Bool)

/-- A call begins where the last one has written everything; devices raise lines and interrupts are
taken at any time. -/
inductive PicStep : PicState → PicAction → PicState → Prop where
  | call {state : PicState} (call : PicCall) : state.writes = [] →
      PicStep state (.call call)
        { state with
          picMask := (call.perform ⟨state.picMask, []⟩).picMask
          writes := (call.perform ⟨state.picMask, []⟩).writes }
  | outb {state : PicState} {write : PortWrite} {rest : List PortWrite} :
      state.writes = write :: rest →
      PicStep state .outb { state with writes := rest, pair := outb state.pair write }
  | request {state : PicState} (line : Line) :
      PicStep state (.request line) { state with pair := state.pair.request line }
  | interrupt {state : PicState} {line : Line} (handlerEnds : Bool) :
      state.pair.pending = some line →
      PicStep state (.interrupt line handlerEnds)
        { state with pair := takeInterrupt state.pair line handlerEnds }

end Nekonix
