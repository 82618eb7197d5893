import Nekonix.Library.Run
import Nekonix.Sys.Idt
import Nekonix.Sys.Pic.Programs

/-!
# The interrupts that the controllers deliver

From `idt_init` on, whatever the driver is called for and wherever interrupts and devices come
between its writes.
-/

namespace Nekonix

open InterruptController Transition

variable {Heap : Type} {pair : Pair} {line : Line} {state next : PicState} {action : PicAction}
  {actions : List PicAction} {mask : U16} {irq : Nat}

/-- Nothing is in service, outside of the handlers. -/
structure IdlePair (pair : Pair) : Prop where
  master : pair.master.inService = 0#8
  slave : pair.slave.inService = 0#8

/-- No request is latched at the line of the slave, where there is no device. -/
def NoCascade (pair : Pair) : Prop := pair.master.requests.getLsbD cascadeLine = false

/-- The boot loader leaves initialized controllers with all lines masked and none in service. -/
structure LoaderPair (pair : Pair) : Prop where
  idle : IdlePair pair
  noCascade : NoCascade pair
  settled : (setupsOf pair).Settled
  masterMasked : pair.master.setup.mask = 0xff#8
  slaveMasked : pair.slave.setup.mask = 0xff#8

/-- What holds at every moment. -/
structure PicSound (state : PicState) : Prop where
  driven : Driven (setupsOf state.pair) ⟨state.picMask, state.writes⟩
  idle : IdlePair state.pair
  noCascade : NoCascade state.pair

theorem setupsOf_outb (pair : Pair) (write : PortWrite) :
    setupsOf (outb pair write) = (setupsOf pair).outb write := by
  unfold outb Setups.outb
  split_ifs <;> simp [setupsOf]

theorem IdlePair.outb (idle : IdlePair pair) (write : PortWrite) : IdlePair (outb pair write) := by
  unfold Nekonix.outb
  split_ifs
  · exact ⟨Chip.command_idle idle.master, idle.slave⟩
  · exact ⟨idle.master, idle.slave⟩
  · exact ⟨idle.master, Chip.command_idle idle.slave⟩
  · exact ⟨idle.master, idle.slave⟩
  · exact idle

/-- A command clears the requests or leaves them. -/
theorem NoCascade.outb (noCascade : NoCascade pair) (write : PortWrite) :
    NoCascade (outb pair write) := by
  unfold NoCascade Nekonix.outb
  split_ifs
  · rcases Chip.command_requests pair.master write.value with cleared | same
    · rw [cleared]
      exact BitVec.getLsbD_zero
    · rw [same]
      exact noCascade
  · exact noCascade
  · exact noCascade
  · exact noCascade
  · exact noCascade

theorem setupsOf_request (pair : Pair) (line : Line) :
    setupsOf (pair.request line) = setupsOf pair := by
  unfold Pair.request
  split_ifs <;> rfl

theorem IdlePair.request (idle : IdlePair pair) (line : Line) : IdlePair (pair.request line) := by
  unfold Pair.request
  split_ifs
  · exact ⟨idle.master, idle.slave⟩
  · exact idle
  · exact ⟨idle.master, idle.slave⟩

theorem NoCascade.request (noCascade : NoCascade pair) (line : Line) :
    NoCascade (pair.request line) := by
  unfold NoCascade Pair.request
  split_ifs with ofSlave isCascade
  · exact noCascade
  · exact noCascade
  · have other : (lineBit line.line).getLsbD cascadeLine = false :=
      lineBit_other (Ne.symm isCascade)
    unfold NoCascade at noCascade
    simp only [Chip.request, BitVec.getLsbD_or, noCascade, other, Bool.or_false]

/-! An interrupt -/

/-- The end of the interrupt of a line, as it reaches the controllers. -/
def endOf (pair : Pair) (line : Line) : Pair :=
  if line.ofSlave then
    ⟨pair.master.endInterrupt picCmdEndOfInterrupt, pair.slave.endInterrupt picCmdEndOfInterrupt⟩
  else
    { pair with master := pair.master.endInterrupt picCmdEndOfInterrupt }

theorem foldl_picSendEndOfInterrupt (pair : Pair) (line : Line) :
    (picSendEndOfInterrupt (irqOf line)).foldl outb pair = endOf pair line := by
  obtain ⟨ofSlave, line⟩ := line
  have small := line.isLt
  cases ofSlave with
  | false =>
      have onMaster : ¬irqOf ⟨false, line⟩ ≥ 8 := by simp [irqOf]
      rw [picSendEndOfInterrupt, if_neg onMaster]
      rfl
  | true =>
      have onSlave : irqOf ⟨true, line⟩ ≥ 8 := by simp [irqOf]
      rw [picSendEndOfInterrupt, if_pos onSlave]
      rfl

/-- The end of the only interrupt in service. -/
theorem IdlePair.endOf_acknowledge (idle : IdlePair pair) (line : Line) :
    IdlePair (endOf (pair.acknowledge line) line) := by
  unfold endOf Pair.acknowledge
  split_ifs
  · exact ⟨Chip.endInterrupt_acknowledge idle.master rfl,
      Chip.endInterrupt_acknowledge idle.slave rfl⟩
  · exact ⟨Chip.endInterrupt_acknowledge idle.master rfl, idle.slave⟩

theorem IdlePair.endOf (idle : IdlePair pair) (line : Line) : endOf pair line = pair := by
  unfold Nekonix.endOf
  split_ifs
  · rw [Chip.endInterrupt_idle idle.master, Chip.endInterrupt_idle idle.slave]
  · rw [Chip.endInterrupt_idle idle.master]

/-- A handler that announces the end itself makes no difference. -/
theorem IdlePair.takeInterrupt (idle : IdlePair pair) (line : Line) (handlerEnds : Bool) :
    takeInterrupt pair line handlerEnds = Nekonix.endOf (pair.acknowledge line) line := by
  unfold Nekonix.takeInterrupt
  simp only [foldl_picSendEndOfInterrupt]
  cases handlerEnds with
  | false => rfl
  | true => exact (idle.endOf_acknowledge line).endOf line

theorem setupsOf_endOf (pair : Pair) (line : Line) :
    setupsOf (endOf (pair.acknowledge line) line) = setupsOf pair := by
  unfold endOf Pair.acknowledge setupsOf
  split_ifs <;> simp

theorem NoCascade.endOf_acknowledge (noCascade : NoCascade pair) (line : Line) :
    NoCascade (endOf (pair.acknowledge line) line) := by
  unfold NoCascade endOf Pair.acknowledge
  split_ifs
  · rw [Chip.endInterrupt_requests]
    exact Chip.acknowledge_down noCascade
  · rw [Chip.endInterrupt_requests]
    exact Chip.acknowledge_down noCascade

/-! Runs -/

theorem PicSound.ready (sound : PicSound state) (done : state.writes = []) :
    (setupsOf state.pair).Ready state.picMask := by
  have ready := sound.driven.ready
  rwa [done] at ready

theorem PicSound.step (sound : PicSound state) (step : PicStep state action next) :
    PicSound next := by
  cases step with
  | call call done => exact ⟨(sound.ready done).call call, sound.idle, sound.noCascade⟩
  | @outb write rest isNext =>
      have driven := sound.driven
      rw [isNext] at driven
      refine ⟨?_, sound.idle.outb write, sound.noCascade.outb write⟩
      rw [setupsOf_outb]
      exact ⟨driven.kept.2, driven.ready⟩
  | request line =>
      refine ⟨?_, sound.idle.request line, sound.noCascade.request line⟩
      rw [setupsOf_request]
      exact sound.driven
  | @interrupt line handlerEnds isPending =>
      rw [sound.idle.takeInterrupt]
      refine ⟨?_, sound.idle.endOf_acknowledge line, sound.noCascade.endOf_acknowledge line⟩
      rw [setupsOf_endOf]
      exact sound.driven

theorem LoaderPair.sound (loader : LoaderPair pair) (mask : U16) :
    PicSound (.boot mask pair) :=
  ⟨idtInit_driven mask loader.settled loader.masterMasked loader.slaveMasked, loader.idle,
    loader.noCascade⟩

theorem LoaderPair.run (loader : LoaderPair pair)
    (run : Run PicStep (.boot mask pair) actions state) : PicSound state :=
  run.invariant PicSound (loader.sound mask) fun _ _ _ sound step => sound.step step

/-- The vector that the processor is given is that of the IRQ. -/
theorem PicSound.vector (sound : PicSound state) (isPending : state.pair.pending = some line) :
    (state.pair.vector line).toNat = 0x20 + irqOf line := by
  have numbered := sound.driven.kept.numbered
  have small := line.line.isLt
  unfold Pair.vector irqOf
  rcases Pair.pending_cases isPending with ⟨ofMaster, offered, -⟩ | ⟨ofSlave, -, offered⟩
  · have vectors : state.pair.master.setup.vectors = 0x20#8 :=
      Chip.pending_vectors offered numbered.master
    simp only [ofMaster, Bool.false_eq_true, if_false, vectors]
    rw [BitVec.toNat_add, BitVec.toNat_ofNat]
    simp
    omega
  · have vectors : state.pair.slave.setup.vectors = 0x28#8 :=
      Chip.pending_vectors offered numbered.slave
    simp only [ofSlave, if_true, vectors]
    rw [BitVec.toNat_add, BitVec.toNat_ofNat]
    simp
    omega

/-- The call in progress has written everything, and nothing has come between. -/
def PicState.finished (state : PicState) : PicState :=
  { state with writes := [], pair := state.writes.foldl outb state.pair }

theorem run_outs (picMask : U16) (pair : Pair) (front back : List PortWrite) :
    Run PicStep ⟨picMask, front ++ back, pair⟩ (List.replicate front.length .outb)
      ⟨picMask, back, front.foldl outb pair⟩ := by
  induction front generalizing pair with
  | nil => exact Run.nil
  | cons write rest inductionHypothesis =>
      have first : Run PicStep ⟨picMask, write :: (rest ++ back), pair⟩ [.outb]
          ⟨picMask, rest ++ back, outb pair write⟩ := Run.single (PicStep.outb rfl)
      exact first.append (inductionHypothesis (outb pair write))

/-- A call can always be finished. -/
theorem run_finished (state : PicState) :
    Run PicStep state (List.replicate state.writes.length .outb) state.finished := by
  have run := run_outs state.picMask state.pair state.writes []
  rwa [List.append_nil] at run

/-- The controllers with the vectors that the firmware of a PC gives them. -/
def firmwarePair : Pair where
  master := ⟨⟨0xff#8, 0x08#8, .nothing, false, true, false⟩, 0#8, 0#8, false⟩
  slave := ⟨⟨0xff#8, 0x70#8, .nothing, false, true, false⟩, 0#8, 0#8, false⟩

theorem firmwarePair_loader : LoaderPair firmwarePair :=
  ⟨⟨rfl, rfl⟩, rfl, ⟨rfl, rfl⟩, rfl, rfl⟩

/-- After `idt_init` and `pic_unmask(1)`. -/
def keyUnmasked : PicState :=
  let booted := (PicState.boot 0xFFFF#16 firmwarePair).finished
  PicState.finished
    { booted with
      picMask := (PicCall.perform ⟨booted.picMask, []⟩ (.unmask 1)).picMask
      writes := (PicCall.perform ⟨booted.picMask, []⟩ (.unmask 1)).writes }

/-- The line of the keyboard. -/
def keyLine : Line := ⟨false, ⟨1, by decide⟩⟩

/-- A key was pressed. -/
def keyPressed : PicState := { keyUnmasked with pair := keyUnmasked.pair.request keyLine }

def keyActions : List PicAction :=
  List.replicate 16 .outb ++ [.call (.unmask 1)] ++ [.outb, .outb] ++ [.request keyLine]

theorem keyPressed_run : Run PicStep (.boot 0xFFFF#16 firmwarePair) keyActions keyPressed := by
  have booted := run_finished (.boot 0xFFFF#16 firmwarePair)
  have called := booted.snoc (PicStep.call (.unmask 1) rfl)
  exact (called.append (run_finished _)).snoc (PicStep.request keyLine)

theorem irqOf_lt (line : Line) : irqOf line < 16 := by
  have small := line.line.isLt
  unfold irqOf
  split_ifs <;> omega

/-- `idt_handler` on a vector from `IRQ_BASE` on. -/
theorem idtHandler_irq (irqHandlers : U64 → Option (System Heap → (frame : U64) → System Heap))
    (devices : U32 → Option (Handle Heap)) (hhdmOffset : U64) (fuel : Nat) (system : System Heap)
    (frame : U64) {number : U64} (few : number < irqCount)
    (isVector : Memory.load64 system.machine.memory (intFrameVector frame) = irqBase + number) :
    idtHandler irqHandlers devices hhdmOffset fuel system frame =
      some (match irqHandlers number with
        | some handler => handler system frame
        | none => system) := by
  unfold irqCount at few
  have above : ¬irqBase + number < 32#64 := by
    unfold irqBase
    bv_omega
  have within : irqBase + number ≥ irqBase ∧ irqBase + number < irqBase + irqCount := by
    unfold irqBase irqCount
    constructor <;> bv_omega
  have isNumber : irqBase + number - irqBase = number := by
    unfold irqBase
    bv_omega
  unfold idtHandler
  simp only [isVector, if_neg above, if_pos within, isNumber]
  cases irqHandlers number <;> rfl

/-- In every run `idt_handler` takes an interrupt for the IRQ of the line that asked for it, and
runs the handler that is registered under it. -/
theorem pic_interrupts_named (loader : LoaderPair pair)
    (run : Run PicStep (.boot mask pair) actions state)
    (isPending : state.pair.pending = some line)
    (irqHandlers : U64 → Option (System Heap → (frame : U64) → System Heap))
    (devices : U32 → Option (Handle Heap)) (hhdmOffset : U64) (fuel : Nat) (system : System Heap)
    (frame : U64) (isVector : Memory.load64 system.machine.memory (intFrameVector frame) =
      (state.pair.vector line).setWidth 64) :
    idtHandler irqHandlers devices hhdmOffset fuel system frame =
      some (match irqHandlers (BitVec.ofNat 64 (irqOf line)) with
        | some handler => handler system frame
        | none => system) := by
  have named := (loader.run run).vector isPending
  have small := irqOf_lt line
  have few : BitVec.ofNat 64 (irqOf line) < irqCount := by
    unfold irqCount
    rw [BitVec.lt_def, BitVec.toNat_ofNat, Nat.mod_eq_of_lt (by omega)]
    exact small
  have vector : (state.pair.vector line).setWidth 64 = irqBase + BitVec.ofNat 64 (irqOf line) := by
    refine BitVec.eq_of_toNat_eq ?_
    rw [BitVec.toNat_setWidth, named, BitVec.toNat_add, BitVec.toNat_ofNat]
    unfold irqBase
    simp
  exact idtHandler_irq irqHandlers devices hhdmOffset fuel system frame few
    (isVector.trans vector)

/-- The frame of an interrupt with the vector of the keyboard, at address 0. -/
def keyInterrupt : System Unit where
  heap := ()
  machine :=
    { memory := fun address => if address = 0x90#64 then 0x21#8 else 0#8
      stack := ⟨fun _ => 0#64, 0#64, 0#64⟩ }
  scheduler := { processes := fun _ => 0#64, processCount := 0#32, currentIndex := 0#32 }
  pidCounter := 0#64
  cr3 := 0#64

theorem pic_interrupts_named_key :
    idtHandler (fun irq => if irq = 1#64 then some fun system _ => { system with cr3 := 1#64 }
        else none) (fun _ => none) 0#64 0 keyInterrupt 0#64 =
      some { keyInterrupt with cr3 := 1#64 } := by
  have isPending : keyPressed.pair.pending = some keyLine := by decide
  exact pic_interrupts_named firmwarePair_loader keyPressed_run isPending _ _ _ _ _ _ (by decide)

/-- In every run nothing is in service once an interrupt has been handled, and it makes no
difference whether the handler has announced the end before `idt_handler` does. -/
theorem pic_interrupts_end (loader : LoaderPair pair)
    (run : Run PicStep (.boot mask pair) actions state) (line : Line) (handlerEnds : Bool) :
    IdlePair (takeInterrupt state.pair line handlerEnds) ∧
      takeInterrupt state.pair line handlerEnds = takeInterrupt state.pair line false := by
  have idle := (loader.run run).idle
  rw [idle.takeInterrupt, idle.takeInterrupt]
  exact ⟨idle.endOf_acknowledge line, rfl⟩

theorem pic_interrupts_end_key :
    takeInterrupt keyPressed.pair keyLine true = takeInterrupt keyPressed.pair keyLine false :=
  (pic_interrupts_end firmwarePair_loader keyPressed_run keyLine true).2

/-! Masks -/

/-- Whether an IRQ is masked after some actions: the last call that names it decides. -/
def irqMasked (irq : Nat) : List PicAction → Bool :=
  List.foldl (fun masked action => match action with
    | .call (.unmask other) => masked && other != irq
    | .call (.mask other) => masked || other == irq
    | .call .disable | .call .enable | .call .init => true
    | .outb | .request _ | .interrupt _ _ => masked) true

theorem irqMasked_snoc (irq : Nat) (actions : List PicAction) (action : PicAction) :
    irqMasked irq (actions ++ [action]) = match action with
      | .call (.unmask other) => irqMasked irq actions && other != irq
      | .call (.mask other) => irqMasked irq actions || other == irq
      | .call .disable | .call .enable | .call .init => true
      | .outb | .request _ | .interrupt _ _ => irqMasked irq actions := by
  unfold irqMasked
  rw [List.foldl_concat]

theorem getLsbD_allMasked (small : irq < 16) : (0xFFFF#16).getLsbD irq = true := by
  have isAll : 0xFFFF#16 = BitVec.allOnes 16 := rfl
  rw [isAll, BitVec.getLsbD_allOnes, decide_eq_true small]

theorem getLsbD_irqBit (small : irq < 16) (other : Nat) :
    (1#16 <<< other).getLsbD irq = (other == irq) := by
  rw [BitVec.getLsbD_shiftLeft, BitVec.getLsbD_one]
  by_cases same : other = irq
  · subst same
    simp [small]
  · have different : (other == irq) = false := by simpa using same
    rw [different]
    simp
    omega

theorem picDisable_picMask (driver : PicDriver) : (picDisable driver).picMask = 0xFFFF#16 := rfl

theorem picEnable_picMask (driver : PicDriver) : (picEnable driver).picMask = 0xFFFF#16 := rfl

theorem picMask_picMask (driver : PicDriver) (irq : Nat) :
    (picMask driver irq).picMask = driver.picMask ||| (1#16 <<< irq) := rfl

theorem picUnmask_picMask (driver : PicDriver) (irq : Nat) :
    (picUnmask driver irq).picMask = driver.picMask &&& ~~~(1#16 <<< irq) := rfl

theorem picInit_picMask (driver : PicDriver) : (picInit driver).picMask = 0xFFFF#16 := by
  unfold picInit
  have configured :
      (picConfigure driver picRemapOffset (picRemapOffset + 8#8) false).picMask = 0xFFFF#16 := rfl
  generalize picConfigure driver _ _ _ = earlier at configured
  generalize List.range 16 = irqs
  induction irqs generalizing earlier with
  | nil => exact configured
  | cons irq rest inductionHypothesis =>
      refine inductionHypothesis _ ?_
      rw [picMask_picMask, configured]
      exact BitVec.allOnes_or

/-- `_pic_mask` is what the calls have made of it. -/
theorem picMask_irqMasked (run : Run PicStep (.boot mask pair) actions state) (small : irq < 16) :
    state.picMask.getLsbD irq = irqMasked irq actions := by
  induction run with
  | nil =>
      have isBoot : (PicState.boot mask pair).picMask = 0xFFFF#16 :=
        picEnable_picMask (picDisable ⟨mask, []⟩)
      rw [isBoot]
      exact getLsbD_allMasked small
  | @snoc actions middle action finish _ step inductionHypothesis =>
      rw [irqMasked_snoc]
      cases step with
      | call call _ =>
          cases call with
          | disable =>
              dsimp only [PicCall.perform]
              rw [picDisable_picMask]
              exact getLsbD_allMasked small
          | enable =>
              dsimp only [PicCall.perform]
              rw [picEnable_picMask]
              exact getLsbD_allMasked small
          | init =>
              dsimp only [PicCall.perform]
              rw [picInit_picMask]
              exact getLsbD_allMasked small
          | mask other =>
              dsimp only [PicCall.perform]
              rw [picMask_picMask, BitVec.getLsbD_or, inductionHypothesis, getLsbD_irqBit small]
          | unmask other =>
              dsimp only [PicCall.perform]
              rw [picUnmask_picMask, BitVec.getLsbD_and, BitVec.getLsbD_not, inductionHypothesis,
                getLsbD_irqBit small]
              simp [small, bne]
      | outb _ => exact inductionHypothesis
      | request _ => exact inductionHypothesis
      | interrupt _ _ => exact inductionHypothesis

theorem PicSound.masterMask (sound : PicSound state) (done : state.writes = []) :
    state.pair.master.setup.mask = state.picMask.setWidth 8 :=
  (sound.ready done).masterMask

theorem PicSound.slaveMask (sound : PicSound state) (done : state.writes = []) :
    state.pair.slave.setup.mask = (state.picMask >>> 8).setWidth 8 :=
  (sound.ready done).slaveMask

/-- The lines are open that the mask leaves open. -/
theorem PicSound.open_iff (sound : PicSound state) (done : state.writes = []) (line : Line) :
    state.pair.Open line ↔ state.picMask.getLsbD (irqOf line) = false ∧
      (line.ofSlave → state.picMask.getLsbD 2 = false) := by
  have onMaster (position : Fin 8) : state.pair.master.setup.mask.getLsbD position =
      state.picMask.getLsbD position := by
    rw [sound.masterMask done, BitVec.getLsbD_setWidth, decide_eq_true position.isLt,
      Bool.true_and]
  have onSlave (position : Fin 8) : state.pair.slave.setup.mask.getLsbD position =
      state.picMask.getLsbD (8 + position) := by
    rw [sound.slaveMask done, BitVec.getLsbD_setWidth, decide_eq_true position.isLt,
      Bool.true_and, BitVec.getLsbD_ushiftRight]
  obtain ⟨ofSlave, position⟩ := line
  unfold Pair.Open irqOf
  cases ofSlave with
  | false => simp only [Bool.false_eq_true, if_false, onMaster, Nat.zero_add, false_implies]
  | true => simp only [if_true, onSlave, onMaster, true_implies]; rfl

/-- In every run, between two calls, an interrupt is pending if and only if a device asks for one
whose IRQ was unmasked last, and so was IRQ 2 where it is one from 8 on; and the one that is
delivered is such. -/
theorem pic_pending_iff (loader : LoaderPair pair)
    (run : Run PicStep (.boot mask pair) actions state) (done : state.writes = []) :
    (state.pair.pending.isSome = true ↔ ∃ line, state.pair.Up line ∧
      irqMasked (irqOf line) actions = false ∧
        (line.ofSlave → irqMasked 2 actions = false)) ∧
    ∀ line, state.pair.pending = some line → state.pair.Up line ∧
      irqMasked (irqOf line) actions = false ∧
        (line.ofSlave → irqMasked 2 actions = false) := by
  have sound := loader.run run
  have settled := (sound.ready done).settled
  have isOpen (line : Line) : state.pair.Open line ↔ irqMasked (irqOf line) actions = false ∧
      (line.ofSlave → irqMasked 2 actions = false) := by
    rw [sound.open_iff done, picMask_irqMasked run (irqOf_lt line),
      picMask_irqMasked run (by decide)]
  constructor
  · rw [Pair.pending_iff sound.idle.master sound.idle.slave settled.master settled.slave
      sound.noCascade]
    exact exists_congr fun line => and_congr_right fun _ => isOpen line
  · intro line isPending
    obtain ⟨isUp, lineOpen⟩ := Pair.up_of_pending isPending
    exact ⟨isUp, (isOpen line).mp lineOpen⟩

theorem pic_pending_iff_key : keyPressed.pair.pending.isSome = true :=
  (pic_pending_iff firmwarePair_loader keyPressed_run rfl).1.mpr ⟨keyLine, rfl, rfl, nofun⟩

/-! Initialization -/

/-- A controller that has just got its initialization words. -/
def initializedPair : Pair where
  master := ⟨initialized 0x20#8, 0#8, 0#8, false⟩
  slave := ⟨initialized 0x28#8, 0#8, 0#8, false⟩

theorem initializedPair_pending (hasDevice : line ≠ ⟨false, cascadeLine⟩) :
    (initializedPair.request line).pending = some line := by
  obtain ⟨ofSlave, position⟩ := line
  cases ofSlave with
  | false =>
      have other : position ≠ cascadeLine := fun same => hasDevice (same ▸ rfl)
      clear hasDevice
      revert position
      decide
  | true =>
      clear hasDevice
      revert position
      decide

/-- The first initialization word of a controller clears its mask.  So in `pic_enable`, before the
mask is set again, every device gets its interrupt through, although no call has unmasked
anything. -/
theorem pic_enable_opens_lines (mask : U16) (pair : Pair)
    (hasDevice : line ≠ ⟨false, cascadeLine⟩) :
    ∃ state, Run PicStep (.boot mask pair) (List.replicate 12 .outb ++ [.request line]) state ∧
      state.picMask = 0xFFFF#16 ∧ state.pair.pending = some line := by
  have run := run_outs 0xFFFF#16 pair
    (Setups.maskWrites 0xFFFF#16 ++ Setups.maskWrites 0xFFFF#16 ++ initWrites)
    (Setups.maskWrites 0xFFFF#16 ++ Setups.maskWrites 0xFFFF#16)
  have isAfter : (Setups.maskWrites 0xFFFF#16 ++ Setups.maskWrites 0xFFFF#16 ++
      initWrites).foldl outb pair = initializedPair := rfl
  rw [isAfter] at run
  exact ⟨_, run.snoc (PicStep.request line), rfl, initializedPair_pending hasDevice⟩

theorem pic_enable_opens_lines_key :
    ∃ state, Run PicStep (.boot 0xFFFF#16 firmwarePair)
        (List.replicate 12 .outb ++ [.request keyLine]) state ∧
      state.picMask = 0xFFFF#16 ∧ state.pair.pending = some keyLine :=
  pic_enable_opens_lines _ _ (by decide)

/-! The registers -/

/-- The two halves of a word. -/
theorem or_halves (word : U16) : (word.setWidth 8).setWidth 16 |||
    ((word >>> 8).setWidth 8).setWidth 16 <<< 8 = word := by
  refine BitVec.eq_of_getLsbD_eq fun position small => ?_
  simp only [BitVec.getLsbD_or, BitVec.getLsbD_setWidth, BitVec.getLsbD_shiftLeft,
    BitVec.getLsbD_ushiftRight]
  by_cases low : position < 8
  · simp [low, small]
  · have high : position - 8 < 8 := by omega
    have inWord : position - 8 < 16 := by omega
    have back : 8 + (position - 8) = position := by omega
    simp [low, small, high, inWord, back]

/-- In every run, between two calls, both functions that are to read the requests and the lines in
service return the mask, whatever is up. -/
theorem pic_reads_return_mask (loader : LoaderPair pair)
    (run : Run PicStep (.boot mask pair) actions state) (done : state.writes = []) :
    (picReadIrqRequestRegister state.pair).1 = state.picMask ∧
      (picReadInServiceRegister state.pair).1 = state.picMask := by
  have sound := loader.run run
  have kept (chip : Chip) (word : U8) (notFirst : word.getLsbD 4 = false) :
      (chip.command word).readData = chip.setup.mask := by
    rw [Chip.readData, Chip.command_setup, Setup.command, notFirst,
      if_neg Bool.false_ne_true]
  have isIrr : (picReadIrqRequestRegister state.pair).1 =
      (state.pair.master.command picCmdReadIrr).readData.setWidth 16 |||
        (state.pair.slave.command picCmdReadIrr).readData.setWidth 16 <<< 8 := rfl
  have isIsr : (picReadInServiceRegister state.pair).1 =
      (state.pair.master.command picCmdReadIsr).readData.setWidth 16 |||
        (state.pair.slave.command picCmdReadIsr).readData.setWidth 16 <<< 8 := rfl
  rw [isIrr, isIsr, kept _ _ rfl, kept _ _ rfl, kept _ _ rfl, kept _ _ rfl,
    sound.masterMask done, sound.slaveMask done]
  exact ⟨or_halves state.picMask, or_halves state.picMask⟩

theorem pic_reads_return_mask_key :
    (picReadIrqRequestRegister keyPressed.pair).1 = 0xFFFD#16 ∧
      (picReadInServiceRegister keyPressed.pair).1 = 0xFFFD#16 :=
  pic_reads_return_mask firmwarePair_loader keyPressed_run rfl

end Nekonix
