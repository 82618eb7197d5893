import Nekonix.Proc.Scheduler.Creation
import Nekonix.Proc.Scheduler.Dispatch

/-!
# Histories of the scheduler

Runs of creations, interrupts and exits, with notes of what each creation made
and of every context that was stored.
-/

namespace Nekonix

open FlatMemory RadixTable Transition

variable {Heap : Type} {hhdmOffset kernelPagemap : U64} {kernel : Frame}
  {held : Heap → Set Frame} {files : Files Heap} {system : System Heap}

/-- The calls that change the process table; a tick is an interrupted context and
the `scheduler_context_switch` that follows. -/
inductive SchedulerCall where
  | createProcess (entry name : U64)
  | createElfProcess (path name : U64)
  | tick (interrupt : Tick)
  | terminate

def SchedulerCall.apply (files : Files Heap) (hhdmOffset kernelPagemap : U64)
    (system : System Heap) : SchedulerCall → System Heap
  | .createProcess entry name =>
      (schedulerCreateProcess hhdmOffset kernelPagemap system entry name).2
  | .createElfProcess path name =>
      (schedulerCreateElfProcess files hhdmOffset kernelPagemap system path name).2
  | .tick interrupt => interrupt.apply hhdmOffset system
  | .terminate => (schedulerTerminateCurrentProcess system).2

/-- A creation that adds a process: the machine before its pagemap is made, the
pagemap, the record, and the machine when `process_create` is done. -/
structure Making where
  before : Machine
  pagemap : U64
  record : U64
  after : Machine

/-- What a call makes, if it adds a process. -/
def SchedulerCall.making (files : Files Heap) (hhdmOffset kernelPagemap : U64)
    (system : System Heap) : SchedulerCall → Option Making
  | .createProcess entry name =>
      if system.scheduler.processCount ≥ maxProcesses then none
      else
        let (pagemap, fresh) := vmmNewPagemap hhdmOffset kernelPagemap system.machine
        let (record, next) :=
          processCreate hhdmOffset { system with machine := fresh } entry pagemap name
        some ⟨system.machine, pagemap, record, next.machine⟩
  | .createElfProcess path name =>
      if system.scheduler.processCount ≥ maxProcesses then none
      else
        match fetchFile files (system.heap, system.machine) path with
        | (none, _) => none
        | (some (_, data), heap, machine) =>
            let (pagemap, fresh) := vmmNewPagemap hhdmOffset kernelPagemap machine
            let (entry, loaded) := elfLoad hhdmOffset fresh data pagemap
            if entry = 0#64 then none
            else
              let (record, next) := processCreate hhdmOffset
                { system with heap, machine := loaded } entry pagemap name
              some ⟨machine, pagemap, record, next.machine⟩
  | .tick _ => none
  | .terminate => none

/-- What is noted of a process when it is created: its record, pagemap and first
stack pointer, and the frames its creation took from the free stack. -/
structure Birth where
  record : U64
  pagemap : U64
  rsp : U64
  taken : List U64
deriving DecidableEq

def Making.birth (making : Making) : Birth where
  record := making.record
  pagemap := making.pagemap
  rsp := Memory.load64 making.after.memory (intFrameRsp (processCtx making.record))
  taken := making.before.free.drop making.after.free.length

/-- A system with its past: the processes created, the index of the one dispatched
last, and the contexts that creations and preemptions stored, each with the index
of its process. -/
structure History (Heap : Type) where
  system : System Heap
  births : List Birth
  owner : Option Nat
  stored : List (Nat × Context)

/-- The history that begins with `scheduler_init`. -/
def History.begin (system : System Heap) : History Heap where
  system := { system with scheduler := schedulerInit system.scheduler }
  births := []
  owner := none
  stored := []

/-- What a call adds to a history.  An exit that takes effect is not followed up. -/
def History.after (files : Files Heap) (hhdmOffset kernelPagemap : U64)
    (history : History Heap) (call : SchedulerCall) : History Heap :=
  let next := call.apply files hhdmOffset kernelPagemap history.system
  match call with
  | .tick interrupt =>
      { history with
        system := next
        owner := if history.births = [] then none
          else some next.scheduler.currentIndex.toNat
        stored := history.stored ++ (history.owner.map fun owner => (owner, interrupt.context)).toList }
  | .terminate => { history with system := next }
  | call =>
      match call.making files hhdmOffset kernelPagemap history.system with
      | none => { history with system := next }
      | some making =>
          { history with
            system := next
            births := history.births ++ [making.birth]
            stored := history.stored ++ [(history.births.length,
              readContext next.machine.memory (processCtx making.record))] }

theorem History.system_after (history : History Heap) (call : SchedulerCall) :
    (history.after files hhdmOffset kernelPagemap call).system =
      call.apply files hhdmOffset kernelPagemap history.system := by
  unfold after
  split
  · rfl
  · rfl
  · split <;> rfl

theorem History.births_after {history : History Heap} {call : SchedulerCall} {making : Making}
    (makes : call.making files hhdmOffset kernelPagemap history.system = some making) :
    (history.after files hhdmOffset kernelPagemap call).births =
      history.births ++ [making.birth] := by
  cases call with
  | createProcess entry name => simp only [after, makes]
  | createElfProcess path name => simp only [after, makes]
  | tick interrupt => cases makes
  | terminate => cases makes

end Nekonix
