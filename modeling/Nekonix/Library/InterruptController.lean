import Mathlib.Data.Fin.Basic
import Mathlib.Data.List.Basic

/-!
# A cascaded pair of 8259A interrupt controllers

A chip latches the requests of eight lines.  It passes on the first one that is not masked, unless
one as urgent is in service, and takes no further one up to there until the end of the interrupt
is announced.  The slave is wired to line 2 of the master.  Rotating priorities, polling and the
special modes are left out.
-/

namespace InterruptController

/-- The initialization word that the data port waits for. -/
inductive Awaiting where
  | vectors
  | cascade
  | mode
  | nothing
deriving DecidableEq

/-- What a chip is programmed with. -/
structure Setup where
  mask : BitVec 8
  vectors : BitVec 8
  awaiting : Awaiting
  single : Bool
  wantsMode : Bool
  autoEnd : Bool
deriving DecidableEq

structure Chip where
  setup : Setup
  requests : BitVec 8
  inService : BitVec 8
  readsInService : Bool
deriving DecidableEq

/-- The most urgent line of a set, which is the lowest. -/
def firstLine (lines : BitVec 8) : Option (Fin 8) :=
  (List.finRange 8).find? fun line => lines.getLsbD line

theorem firstLine_mem {lines : BitVec 8} {line : Fin 8} (isFirst : firstLine lines = some line) :
    lines.getLsbD line = true := by
  unfold firstLine at isFirst
  simpa using List.find?_some isFirst

theorem firstLine_isSome {lines : BitVec 8} {line : Fin 8} (member : lines.getLsbD line = true) :
    (firstLine lines).isSome = true := by
  unfold firstLine
  rw [List.find?_isSome]
  exact ⟨line, List.mem_finRange line, member⟩

theorem all_masked (line : Fin 8) : (0xff#8).getLsbD line = true := by
  revert line
  decide

def lineBit (line : Fin 8) : BitVec 8 := 1#8 <<< line.val

theorem lineBit_and_pred (line : Fin 8) : lineBit line &&& (lineBit line - 1#8) = 0#8 := by
  revert line
  decide

theorem lineBit_other {line other : Fin 8} (different : other ≠ line) :
    (lineBit line).getLsbD other = false := by
  revert line other
  decide

namespace Setup

/-- The first initialization word has bit 4. -/
def command (setup : Setup) (word : BitVec 8) : Setup :=
  if word.getLsbD 4 then
    { mask := 0#8
      vectors := setup.vectors
      awaiting := .vectors
      single := word.getLsbD 1
      wantsMode := word.getLsbD 0
      autoEnd := false }
  else
    setup

/-- The further initialization words, and then the mask. -/
def data (setup : Setup) (word : BitVec 8) : Setup :=
  match setup.awaiting with
  | .vectors =>
      { setup with
        vectors := word &&& 0xf8#8
        awaiting :=
          if !setup.single then .cascade else if setup.wantsMode then .mode else .nothing }
  | .cascade => { setup with awaiting := if setup.wantsMode then .mode else .nothing }
  | .mode => { setup with autoEnd := word.getLsbD 1, awaiting := .nothing }
  | .nothing => { setup with mask := word }

theorem data_settled {setup : Setup} (settled : setup.awaiting = .nothing) (word : BitVec 8) :
    setup.data word = { setup with mask := word } := by
  unfold data
  split <;> simp_all

/-- The chip passes nothing on yet, or has all lines masked, or gives its vectors from `base` on. -/
def Numbered (base : BitVec 8) (setup : Setup) : Prop :=
  setup.awaiting ≠ .nothing ∨ setup.mask = 0xff#8 ∨ setup.vectors = base

end Setup

namespace Chip

/-- The end of the most urgent interrupt in service, or of the one that bits 0 to 2 name. -/
def endInterrupt (chip : Chip) (word : BitVec 8) : Chip :=
  if word.getLsbD 6 then
    { chip with inService := chip.inService &&& ~~~(1#8 <<< (word.toNat % 8)) }
  else
    { chip with inService := chip.inService &&& (chip.inService - 1#8) }

/-- A write to the command port. -/
def command (chip : Chip) (word : BitVec 8) : Chip :=
  if word.getLsbD 4 then
    { setup := chip.setup.command word, requests := 0#8, inService := 0#8, readsInService := false }
  else if word.getLsbD 3 then
    if word.getLsbD 1 then { chip with readsInService := word.getLsbD 0 } else chip
  else if word.getLsbD 5 then
    chip.endInterrupt word
  else
    chip

/-- A write to the data port. -/
def data (chip : Chip) (word : BitVec 8) : Chip := { chip with setup := chip.setup.data word }

/-- A read of the command port. -/
def readCommand (chip : Chip) : BitVec 8 :=
  if chip.readsInService then chip.inService else chip.requests

/-- A read of the data port. -/
def readData (chip : Chip) : BitVec 8 := chip.setup.mask

/-- A line goes up. -/
def request (chip : Chip) (line : Fin 8) : Chip :=
  { chip with requests := chip.requests ||| lineBit line }

/-- The line that the chip passes on; `inputs` are lines that are up without being latched. -/
def pending (chip : Chip) (inputs : BitVec 8) : Option (Fin 8) :=
  if chip.setup.awaiting = .nothing then
    (firstLine ((chip.requests ||| inputs) &&& ~~~chip.setup.mask)).filter fun line =>
      (firstLine chip.inService).all fun served => line < served
  else
    none

/-- The processor takes the interrupt of a line. -/
def acknowledge (chip : Chip) (line : Fin 8) : Chip :=
  { chip with
    requests := chip.requests &&& ~~~lineBit line
    inService := if chip.setup.autoEnd then chip.inService else chip.inService ||| lineBit line }

variable {chip : Chip} {line : Fin 8} {inputs word base : BitVec 8}

@[simp]
theorem data_setup : (chip.data word).setup = chip.setup.data word := rfl

@[simp]
theorem request_setup : (chip.request line).setup = chip.setup := rfl

@[simp]
theorem acknowledge_setup : (chip.acknowledge line).setup = chip.setup := rfl

/-- The request is taken back, and no other one comes up. -/
theorem acknowledge_down {other : Fin 8} (down : chip.requests.getLsbD other = false) :
    (chip.acknowledge line).requests.getLsbD other = false := by
  unfold acknowledge
  rw [BitVec.getLsbD_and, down, Bool.false_and]

@[simp]
theorem endInterrupt_setup : (chip.endInterrupt word).setup = chip.setup := by
  unfold endInterrupt
  split_ifs <;> rfl

@[simp]
theorem command_setup : (chip.command word).setup = chip.setup.command word := by
  unfold command Setup.command
  split_ifs <;> simp

/-- Where nothing is in service an end changes nothing. -/
theorem endInterrupt_idle (idle : chip.inService = 0#8) : chip.endInterrupt word = chip := by
  obtain ⟨setup, requests, inService, readsInService⟩ := chip
  obtain rfl : inService = 0#8 := idle
  unfold endInterrupt
  split_ifs <;> simp

/-- No command puts a line in service. -/
theorem command_idle (idle : chip.inService = 0#8) : (chip.command word).inService = 0#8 := by
  unfold command
  split_ifs
  · rfl
  · exact idle
  · exact idle
  · rw [endInterrupt_idle idle]
    exact idle
  · exact idle

/-- A command clears the requests or leaves them. -/
theorem command_requests (chip : Chip) (word : BitVec 8) :
    (chip.command word).requests = 0#8 ∨ (chip.command word).requests = chip.requests := by
  unfold command endInterrupt
  split_ifs <;> simp

@[simp]
theorem endInterrupt_requests : (chip.endInterrupt word).requests = chip.requests := by
  unfold endInterrupt
  split_ifs <;> rfl

/-- The end of the only interrupt in service. -/
theorem endInterrupt_acknowledge (idle : chip.inService = 0#8) (notNamed : word.getLsbD 6 = false) :
    ((chip.acknowledge line).endInterrupt word).inService = 0#8 := by
  unfold endInterrupt acknowledge
  simp only [notNamed, Bool.false_eq_true, if_false, idle]
  split_ifs
  · rfl
  · rw [BitVec.zero_or]
    exact lineBit_and_pred line

theorem pending_ready (isPending : chip.pending inputs = some line) :
    chip.setup.awaiting = .nothing := by
  unfold pending at isPending
  split_ifs at isPending with ready
  exact ready

/-- What is passed on is up and not masked. -/
theorem pending_mem (isPending : chip.pending inputs = some line) :
    (chip.requests ||| inputs).getLsbD line = true ∧ chip.setup.mask.getLsbD line = false := by
  have ready := pending_ready isPending
  unfold pending at isPending
  rw [if_pos ready, Option.filter_eq_some_iff] at isPending
  have isUp := firstLine_mem isPending.1
  rw [BitVec.getLsbD_and, Bool.and_eq_true, BitVec.getLsbD_not] at isUp
  exact ⟨isUp.1, by simpa using isUp.2⟩

/-- Where nothing is in service, a line that is up and not masked makes the chip pass one on. -/
theorem pending_isSome (idle : chip.inService = 0#8) (ready : chip.setup.awaiting = .nothing)
    (isUp : (chip.requests ||| inputs).getLsbD line = true)
    (unmasked : chip.setup.mask.getLsbD line = false) : (chip.pending inputs).isSome = true := by
  have member : ((chip.requests ||| inputs) &&& ~~~chip.setup.mask).getLsbD line = true := by
    rw [BitVec.getLsbD_and, isUp, BitVec.getLsbD_not, unmasked]
    simp
  obtain ⟨first, isFirst⟩ := Option.isSome_iff_exists.mp (firstLine_isSome member)
  unfold pending
  rw [if_pos ready, isFirst, idle]
  rfl

theorem pending_vectors (isPending : chip.pending inputs = some line)
    (numbered : chip.setup.Numbered base) : chip.setup.vectors = base := by
  rcases numbered with waits | masked | isBase
  · exact absurd (pending_ready isPending) waits
  · have unmasked := (pending_mem isPending).2
    rw [masked, all_masked] at unmasked
    cases unmasked
  · exact isBase

end Chip

structure Pair where
  master : Chip
  slave : Chip
deriving DecidableEq

/-- The line of the master that the slave is wired to. -/
def cascadeLine : Fin 8 := 2

/-- A line of both chips, those of the slave behind those of the master. -/
structure Line where
  ofSlave : Bool
  line : Fin 8
deriving DecidableEq

namespace Pair

/-- A device raises its line; there is none at the line of the slave. -/
def request (pair : Pair) (line : Line) : Pair :=
  if line.ofSlave then
    { pair with slave := pair.slave.request line.line }
  else if line.line = cascadeLine then
    pair
  else
    { pair with master := pair.master.request line.line }

/-- The line of the master that is up while the slave passes on a request. -/
def slaveInput (pair : Pair) : BitVec 8 :=
  if (pair.slave.pending 0#8).isSome then lineBit cascadeLine else 0#8

/-- The line whose interrupt the processor is offered. -/
def pending (pair : Pair) : Option Line :=
  (pair.master.pending pair.slaveInput).bind fun line =>
    if line = cascadeLine then (pair.slave.pending 0#8).map fun line => ⟨true, line⟩
    else some ⟨false, line⟩

/-- The vector of a line. -/
def vector (pair : Pair) (line : Line) : BitVec 8 :=
  (if line.ofSlave then pair.slave else pair.master).setup.vectors + BitVec.ofNat 8 line.line

/-- The processor takes the interrupt of a line. -/
def acknowledge (pair : Pair) (line : Line) : Pair :=
  if line.ofSlave then
    ⟨pair.master.acknowledge cascadeLine, pair.slave.acknowledge line.line⟩
  else
    { pair with master := pair.master.acknowledge line.line }

variable {pair : Pair} {line : Line}

/-- The chip that has the line passes it on, and a line of the slave goes through the master. -/
theorem pending_cases (isPending : pair.pending = some line) :
    (line.ofSlave = false ∧ pair.master.pending pair.slaveInput = some line.line ∧
        line.line ≠ cascadeLine) ∨
      line.ofSlave = true ∧ pair.master.pending pair.slaveInput = some cascadeLine ∧
        pair.slave.pending 0#8 = some line.line := by
  unfold pending at isPending
  obtain ⟨first, isFirst, isLine⟩ := Option.bind_eq_some_iff.mp isPending
  split_ifs at isLine with isCascade
  · obtain ⟨behind, isBehind, rfl⟩ := Option.map_eq_some_iff.mp isLine
    rw [isCascade] at isFirst
    exact Or.inr ⟨rfl, isFirst, isBehind⟩
  · obtain rfl := Option.some.inj isLine
    exact Or.inl ⟨rfl, isFirst, isCascade⟩

/-- The device at the line asks for an interrupt. -/
def Up (pair : Pair) (line : Line) : Prop :=
  (if line.ofSlave then pair.slave else pair.master).requests.getLsbD line.line = true

/-- The line is not masked, nor is the slave for a line of its own. -/
def Open (pair : Pair) (line : Line) : Prop :=
  (if line.ofSlave then pair.slave else pair.master).setup.mask.getLsbD line.line = false ∧
    (line.ofSlave → pair.master.setup.mask.getLsbD cascadeLine = false)

theorem slaveInput_cascade :
    pair.slaveInput.getLsbD cascadeLine = (pair.slave.pending 0#8).isSome := by
  unfold slaveInput
  split_ifs with isSome
  · rw [isSome]
    decide
  · simpa using isSome

theorem slaveInput_other {line : Fin 8} (other : line ≠ cascadeLine) :
    pair.slaveInput.getLsbD line = false := by
  unfold slaveInput
  split_ifs
  · revert line
    decide
  · exact BitVec.getLsbD_zero

/-- What is delivered is up and open. -/
theorem up_of_pending (isPending : pair.pending = some line) : pair.Up line ∧ pair.Open line := by
  unfold Up Open
  rcases pending_cases isPending with ⟨ofMaster, offered, other⟩ | ⟨ofSlave, through, offered⟩
  · obtain ⟨isUp, unmasked⟩ := Chip.pending_mem offered
    rw [BitVec.getLsbD_or, slaveInput_other other, Bool.or_false] at isUp
    simp only [ofMaster, Bool.false_eq_true, if_false, false_implies, and_true]
    exact ⟨isUp, unmasked⟩
  · obtain ⟨isUp, unmasked⟩ := Chip.pending_mem offered
    rw [BitVec.or_zero] at isUp
    simp only [ofSlave, if_true, true_implies]
    exact ⟨isUp, unmasked, (Chip.pending_mem through).2⟩

/-- Where nothing is in service, an interrupt is pending if and only if a device that asks for one
has an open line. -/
theorem pending_iff (masterIdle : pair.master.inService = 0#8)
    (slaveIdle : pair.slave.inService = 0#8) (masterReady : pair.master.setup.awaiting = .nothing)
    (slaveReady : pair.slave.setup.awaiting = .nothing)
    (noDevice : pair.master.requests.getLsbD cascadeLine = false) :
    pair.pending.isSome = true ↔ ∃ line, pair.Up line ∧ pair.Open line := by
  constructor
  · intro isSome
    obtain ⟨line, isPending⟩ := Option.isSome_iff_exists.mp isSome
    exact ⟨line, up_of_pending isPending⟩
  · rintro ⟨line, isUp, unmasked, through⟩
    unfold Up at isUp
    have offered : (pair.master.pending pair.slaveInput).isSome = true := by
      cases ofSlave : line.ofSlave with
      | false =>
          simp only [ofSlave, Bool.false_eq_true, if_false] at isUp unmasked
          refine Chip.pending_isSome masterIdle masterReady ?_ unmasked
          rw [BitVec.getLsbD_or, isUp, Bool.true_or]
      | true =>
          simp only [ofSlave, if_true] at isUp unmasked
          refine Chip.pending_isSome masterIdle masterReady ?_ (through ofSlave)
          have behind : (pair.slave.pending 0#8).isSome = true := by
            refine Chip.pending_isSome slaveIdle slaveReady ?_ unmasked
            rw [BitVec.or_zero]
            exact isUp
          rw [BitVec.getLsbD_or, slaveInput_cascade, behind, Bool.or_true]
    obtain ⟨first, isFirst⟩ := Option.isSome_iff_exists.mp offered
    unfold pending
    rw [isFirst, Option.bind_some]
    split_ifs with isCascade
    · -- the master has no device at the line of the slave, so the slave passes something on
      have isUp := (Chip.pending_mem isFirst).1
      rw [isCascade, BitVec.getLsbD_or, noDevice, Bool.false_or, slaveInput_cascade] at isUp
      rw [Option.isSome_map, isUp]
    · rfl

end Pair

end InterruptController
