import Nekonix.Sys.Pic

/-!
# How the controllers are programmed

Interrupts and devices leave alone what the controllers are programmed with.  So it depends only on
the writes of the driver, and at every moment between them a controller passes nothing on, has all
lines masked, or gives its own vectors.
-/

namespace Nekonix

open InterruptController

/-- What both controllers are programmed with. -/
structure Setups where
  master : Setup
  slave : Setup

def setupsOf (pair : Pair) : Setups := ⟨pair.master.setup, pair.slave.setup⟩

namespace Setups

def outb (setups : Setups) (write : PortWrite) : Setups :=
  if write.port = pic1Command then { setups with master := setups.master.command write.value }
  else if write.port = pic1Data then { setups with master := setups.master.data write.value }
  else if write.port = pic2Command then { setups with slave := setups.slave.command write.value }
  else if write.port = pic2Data then { setups with slave := setups.slave.data write.value }
  else setups

def outs (setups : Setups) (writes : List PortWrite) : Setups := writes.foldl outb setups

/-- The vectors that are given are those from `IRQ_BASE` on. -/
structure Numbered (setups : Setups) : Prop where
  master : setups.master.Numbered 0x20#8
  slave : setups.slave.Numbered 0x28#8

/-- It is so before every write and after the last one. -/
def Kept (setups : Setups) : List PortWrite → Prop
  | [] => setups.Numbered
  | write :: rest => setups.Numbered ∧ (setups.outb write).Kept rest

/-- Neither controller waits for an initialization word. -/
structure Settled (setups : Setups) : Prop where
  master : setups.master.awaiting = .nothing
  slave : setups.slave.awaiting = .nothing

/-- The controllers are initialized and have the mask. -/
structure Ready (mask : U16) (setups : Setups) : Prop where
  settled : setups.Settled
  masterVectors : setups.master.vectors = 0x20#8
  slaveVectors : setups.slave.vectors = 0x28#8
  masterMask : setups.master.mask = mask.setWidth 8
  slaveMask : setups.slave.mask = (mask >>> 8).setWidth 8

variable {setups : Setups} {writes first second : List PortWrite} {mask : U16}

@[simp]
theorem outs_nil : setups.outs [] = setups := rfl

@[simp]
theorem outs_cons (write : PortWrite) :
    setups.outs (write :: writes) = (setups.outb write).outs writes := rfl

theorem outs_append : setups.outs (first ++ second) = (setups.outs first).outs second :=
  List.foldl_append

theorem Kept.numbered (kept : setups.Kept writes) : setups.Numbered := by
  cases writes with
  | nil => exact kept
  | cons write rest => exact kept.1

theorem kept_append (kept : setups.Kept first) (further : (setups.outs first).Kept second) :
    setups.Kept (first ++ second) := by
  induction first generalizing setups with
  | nil => exact further
  | cons write rest inductionHypothesis =>
      exact ⟨kept.1, inductionHypothesis kept.2 further⟩

theorem Kept.finish (kept : setups.Kept writes) : (setups.outs writes).Numbered := by
  induction writes generalizing setups with
  | nil => exact kept
  | cons write rest inductionHypothesis => exact inductionHypothesis kept.2

theorem Ready.numbered (ready : Ready mask setups) : setups.Numbered :=
  ⟨Or.inr (Or.inr ready.masterVectors), Or.inr (Or.inr ready.slaveVectors)⟩

/-- The writes of `pic_set_mask`. -/
def maskWrites (mask : U16) : List PortWrite :=
  [⟨pic1Data, mask.setWidth 8⟩, ⟨pic2Data, (mask >>> 8).setWidth 8⟩]

theorem Settled.outb_master (settled : setups.Settled) (value : U8) :
    setups.outb ⟨pic1Data, value⟩ =
      { setups with master := { setups.master with mask := value } } := by
  rw [← Setup.data_settled settled.master]
  rfl

theorem Settled.outb_slave (settled : setups.Settled) (value : U8) :
    setups.outb ⟨pic2Data, value⟩ =
      { setups with slave := { setups.slave with mask := value } } := by
  rw [← Setup.data_settled settled.slave]
  rfl

theorem Settled.outs_mask (settled : setups.Settled) (mask : U16) : setups.outs (maskWrites mask) =
    ⟨{ setups.master with mask := mask.setWidth 8 },
      { setups.slave with mask := (mask >>> 8).setWidth 8 }⟩ := by
  have between : (setups.outb ⟨pic1Data, mask.setWidth 8⟩).Settled := by
    rw [settled.outb_master]
    exact ⟨settled.master, settled.slave⟩
  rw [maskWrites, outs_cons, outs_cons, outs_nil, between.outb_slave, settled.outb_master]

theorem Settled.after_mask (settled : setups.Settled) :
    (setups.outs (maskWrites mask)).Settled := by
  rw [settled.outs_mask]
  exact ⟨settled.master, settled.slave⟩

/-- A mask that leaves no line open may be set at any time, and any mask where the vectors are
right. -/
theorem Settled.kept_mask (settled : setups.Settled) (numbered : setups.Numbered)
    (masterSafe : mask.setWidth 8 = 0xff#8 ∨ setups.master.vectors = 0x20#8)
    (slaveSafe : (mask >>> 8).setWidth 8 = 0xff#8 ∨ setups.slave.vectors = 0x28#8) :
    setups.Kept (maskWrites mask) := by
  have masterNumbered :
      Setup.Numbered 0x20#8 { setups.master with mask := mask.setWidth 8 } := Or.inr masterSafe
  refine ⟨numbered, ?_, ?_⟩
  · rw [settled.outb_master]
    exact ⟨masterNumbered, numbered.slave⟩
  · have after := settled.outs_mask mask
    rw [maskWrites, outs_cons, outs_cons, outs_nil] at after
    rw [Kept, after]
    exact ⟨masterNumbered, Or.inr slaveSafe⟩

end Setups

/-! The driver -/

/-- The writes of a driver are safe, and what it leaves is settled. -/
structure Driving (setups : Setups) (driver : PicDriver) : Prop where
  kept : setups.Kept driver.writes
  settled : (setups.outs driver.writes).Settled

/-- The writes of a driver are safe, and the controllers end up with its mask. -/
structure Driven (setups : Setups) (driver : PicDriver) : Prop where
  kept : setups.Kept driver.writes
  ready : (setups.outs driver.writes).Ready driver.picMask

open Setups (maskWrites)

variable {setups : Setups} {driver : PicDriver}

theorem Driven.driving (driven : Driven setups driver) : Driving setups driver :=
  ⟨driven.kept, driven.ready.settled⟩

theorem picSetMask_writes (mask : U16) :
    (picSetMask driver mask).writes = driver.writes ++ maskWrites mask := rfl

theorem Driven.setMask (driven : Driven setups driver) (mask : U16) :
    Driven setups (picSetMask driver mask) := by
  have settled := driven.ready.settled
  refine ⟨?_, ?_⟩
  · rw [picSetMask_writes]
    exact Setups.kept_append driven.kept (settled.kept_mask driven.ready.numbered
      (Or.inr driven.ready.masterVectors) (Or.inr driven.ready.slaveVectors))
  · rw [picSetMask_writes, Setups.outs_append, settled.outs_mask]
    exact ⟨⟨settled.master, settled.slave⟩, driven.ready.masterVectors,
      driven.ready.slaveVectors, rfl, rfl⟩

theorem Driving.disable (driving : Driving setups driver) :
    Driving setups (picDisable driver) := by
  refine ⟨?_, ?_⟩
  · unfold picDisable
    rw [picSetMask_writes]
    exact Setups.kept_append driving.kept (driving.settled.kept_mask driving.kept.finish
      (Or.inl rfl) (Or.inl rfl))
  · unfold picDisable
    rw [picSetMask_writes, Setups.outs_append]
    exact driving.settled.after_mask

/-- The initialization words, with the vectors of the kernel. -/
def initWrites : List PortWrite :=
  [⟨pic1Command, picIcw1⟩, ⟨pic2Command, picIcw1⟩,
    ⟨pic1Data, picRemapOffset⟩, ⟨pic2Data, picRemapOffset + 8#8⟩,
    ⟨pic1Data, 0x04#8⟩, ⟨pic2Data, 0x02#8⟩, ⟨pic1Data, picIcw4⟩, ⟨pic2Data, picIcw4⟩]

/-- What a controller is programmed with once it has all initialization words. -/
def initialized (vectors : U8) : Setup := ⟨0#8, vectors, .nothing, false, true, false⟩

/-- A controller waits for further words until it has its vectors. -/
theorem initWrites_kept (numbered : setups.Numbered) : setups.Kept initWrites := by
  have waits (setup : Setup) (base : U8) (waiting : setup.awaiting ≠ .nothing) :
      setup.Numbered base := Or.inl waiting
  have given (setup : Setup) (base : U8) (isBase : setup.vectors = base) :
      setup.Numbered base := Or.inr (Or.inr isBase)
  refine ⟨numbered, ⟨waits _ _ nofun, numbered.slave⟩, ?_⟩
  refine ⟨⟨waits _ _ nofun, waits _ _ nofun⟩, ⟨waits _ _ nofun, waits _ _ nofun⟩, ?_⟩
  refine ⟨⟨waits _ _ nofun, waits _ _ nofun⟩, ⟨waits _ _ nofun, waits _ _ nofun⟩, ?_⟩
  refine ⟨⟨waits _ _ nofun, waits _ _ nofun⟩, ⟨given _ _ rfl, waits _ _ nofun⟩, ?_⟩
  exact ⟨given _ _ rfl, given _ _ rfl⟩

theorem outs_initWrites : setups.outs initWrites = ⟨initialized 0x20#8, initialized 0x28#8⟩ := rfl

theorem picConfigure_writes :
    (picConfigure driver picRemapOffset (picRemapOffset + 8#8) false).writes =
      (picDisable driver).writes ++ initWrites ++ maskWrites 0xFFFF#16 := rfl

/-- Initialization makes settled controllers ready. -/
theorem Driving.configure (driving : Driving setups driver) :
    Driven setups (picConfigure driver picRemapOffset (picRemapOffset + 8#8) false) := by
  have disabled := driving.disable
  have isKept : setups.Kept ((picDisable driver).writes ++ initWrites) :=
    Setups.kept_append disabled.kept (initWrites_kept disabled.kept.finish)
  have isAfter : setups.outs ((picDisable driver).writes ++ initWrites) =
      ⟨initialized 0x20#8, initialized 0x28#8⟩ := by
    rw [Setups.outs_append, outs_initWrites]
  have settled : (⟨initialized 0x20#8, initialized 0x28#8⟩ : Setups).Settled := ⟨rfl, rfl⟩
  refine ⟨?_, ?_⟩
  · rw [picConfigure_writes]
    refine Setups.kept_append isKept ?_
    rw [isAfter]
    exact settled.kept_mask (isAfter ▸ isKept.finish) (Or.inl rfl) (Or.inl rfl)
  · rw [picConfigure_writes, Setups.outs_append, isAfter, settled.outs_mask]
    exact ⟨⟨rfl, rfl⟩, rfl, rfl, rfl, rfl⟩

theorem Driving.enable (driving : Driving setups driver) : Driven setups (picEnable driver) :=
  driving.configure.setMask _

theorem Driven.mask (driven : Driven setups driver) (irq : Nat) :
    Driven setups (picMask driver irq) :=
  driven.setMask _

theorem Driving.init (driving : Driving setups driver) : Driven setups (picInit driver) := by
  unfold picInit
  generalize List.range 16 = irqs
  have configured := driving.configure
  generalize picConfigure driver _ _ _ = earlier at configured
  induction irqs generalizing earlier with
  | nil => exact configured
  | cons irq rest inductionHypothesis => exact inductionHypothesis _ (configured.mask irq)

/-- A call from controllers that are ready. -/
theorem Setups.Ready.call {mask : U16} (ready : setups.Ready mask) (call : PicCall) :
    Driven setups (call.perform ⟨mask, []⟩) := by
  have start : Driven setups ⟨mask, []⟩ := ⟨ready.numbered, ready⟩
  cases call with
  | disable => exact start.setMask _
  | enable => exact start.driving.enable
  | init => exact start.driving.init
  | mask irq => exact start.mask irq
  | unmask irq => exact start.setMask _

/-- The calls in `idt_init`, from controllers that a boot loader has left with all lines masked. -/
theorem idtInit_driven (mask : U16) (settled : setups.Settled)
    (masterMasked : setups.master.mask = 0xff#8) (slaveMasked : setups.slave.mask = 0xff#8) :
    Driven setups (picEnable (picDisable ⟨mask, []⟩)) := by
  have numbered : setups.Numbered := ⟨Or.inr (Or.inl masterMasked), Or.inr (Or.inl slaveMasked)⟩
  have start : Driving setups ⟨mask, []⟩ := ⟨numbered, settled⟩
  exact start.disable.enable

end Nekonix
