import Mathlib.Data.List.InsertIdx
import Nekonix.Proc.Scheduler.Births
import Nekonix.Proc.Scheduler.Exit

/-!
# The roster

The scheduler with its past: the records of all creations, in order, and the
numbers of the processes that were taken out of the table.  What one call adds
to it, and which slots of the array it reads or writes.
-/

namespace Nekonix

open FlatMemory Transition

variable {Heap : Type} {hhdmOffset kernelPagemap : U64} {files : Files Heap}
  {system : System Heap} {scheduler : Scheduler} {procs : List U64}

/-! The slots that a call reads or writes -/

/-- The slots that the loop of `shiftProcesses` reads or writes. -/
def shiftAccesses (last : U32) : (fuel : Nat) → (i : U32) → List U32
  | 0, _ => []
  | fuel + 1, i =>
      if i < last then i :: (i + 1#32) :: shiftAccesses last fuel (i + 1#32) else []

/-- The slots of `scheduler.processes` that a call reads or writes. -/
def SchedulerCall.accesses (files : Files Heap) (hhdmOffset kernelPagemap : U64)
    (system : System Heap) : SchedulerCall → List U32
  | .tick _ =>
      if system.scheduler.processCount = 0#32 then []
      else [system.scheduler.currentIndex, nextIndex system.scheduler]
  | .terminate =>
      system.scheduler.currentIndex ::
        if Running system.scheduler system.machine.memory then
          shiftAccesses (system.scheduler.processCount - 1#32) (2 ^ 32)
            system.scheduler.currentIndex
        else []
  | call =>
      if (call.making files hhdmOffset kernelPagemap system).isSome then
        [system.scheduler.processCount]
      else []

/-- The loop stays between its first slot and `last`. -/
theorem mem_shiftAccesses {last i slot : U32} {fuel : Nat}
    (membership : slot ∈ shiftAccesses last fuel i) : i ≤ slot ∧ slot ≤ last := by
  induction fuel generalizing i with
  | zero => cases membership
  | succ fuel inductionHypothesis =>
      unfold shiftAccesses at membership
      split at membership
      next inside =>
        rcases List.mem_cons.mp membership with rfl | later
        · refine ⟨BitVec.le_refl _, ?_⟩
          bv_omega
        · rcases List.mem_cons.mp later with rfl | further
          · refine ⟨?_, ?_⟩ <;> bv_omega
          · obtain ⟨after, before⟩ := inductionHypothesis further
            refine ⟨?_, before⟩
            bv_omega
      next => cases membership

/-- The loop writes to no slot beside those. -/
theorem shiftProcesses_outside {last i slot : U32} {fuel : Nat} (processes : U32 → U64)
    (outside : slot ∉ shiftAccesses last fuel i) :
    shiftProcesses last fuel processes i slot = processes slot := by
  induction fuel generalizing i processes with
  | zero => rfl
  | succ fuel inductionHypothesis =>
      unfold shiftAccesses at outside
      unfold shiftProcesses
      split
      next inside =>
        rw [if_pos inside] at outside
        have notHere : slot ≠ i := fun here => outside (here ▸ List.mem_cons_self)
        have later : slot ∉ shiftAccesses last fuel (i + 1#32) := fun further =>
          outside (List.mem_cons_of_mem _ (List.mem_cons_of_mem _ further))
        rw [inductionHypothesis _ later, Function.update_of_ne notHere]
      next => rfl

/-! A scheduler with its past -/

/-- The scheduler with the records of all creations, in order, the numbers of those
that were taken out of the table, and whether the last exit stays in
`scheduler_idle`. -/
structure Roster (Heap : Type) where
  system : System Heap
  created : List U64
  removed : List Nat
  idle : Bool

/-- The roster that begins with `scheduler_init`. -/
def Roster.begin (system : System Heap) : Roster Heap where
  system := { system with scheduler := schedulerInit system.scheduler }
  created := []
  removed := []
  idle := false

/-- The processes that were created and not removed, each with its number, in the
order of creation. -/
def Roster.listed (roster : Roster Heap) : List (U64 × Nat) :=
  roster.created.zipIdx.filter fun process => process.2 ∉ roster.removed

/-- Their records. -/
def Roster.records (roster : Roster Heap) : List U64 := roster.listed.map Prod.fst

/-- The number of the process at `current_index`. -/
def Roster.currentNumber (roster : Roster Heap) : Option Nat :=
  roster.listed[roster.system.scheduler.currentIndex.toNat]?.map Prod.snd

def Roster.after (files : Files Heap) (hhdmOffset kernelPagemap : U64) (roster : Roster Heap)
    (call : SchedulerCall) : Roster Heap :=
  let next := call.apply files hhdmOffset kernelPagemap roster.system
  match call with
  | .tick _ => { roster with system := next }
  | .terminate =>
      if Running roster.system.scheduler roster.system.machine.memory then
        { roster with
          system := next
          removed := roster.removed ++ roster.currentNumber.toList
          idle := !(schedulerTerminateCurrentProcess roster.system).1 }
      else
        { roster with system := next }
  | call =>
      { roster with
        system := next
        created := roster.created ++
          ((call.making files hhdmOffset kernelPagemap roster.system).map Making.record).toList }

/-- The record that a creation makes is fresh: no part of a listed one nor of the page
that becomes its stack, and what follows in the call leaves it alone. -/
structure FreshRecord (procs : List U64) (making : Making) (next : System Heap) : Prop where
  nonnull : making.record ≠ 0#64
  listed : ∀ proc ∈ procs, Separate proc processSize making.record processSize
  stack : Separate making.record processSize (making.birth.rsp - 4095#64) 4096
  kept : ∀ address, InRange making.record processSize address →
    next.machine.memory address = making.after.memory address

/-- The creation works on memory that is not in use by a listed record. -/
structure SchedulerCall.Fresh (files : Files Heap) (hhdmOffset kernelPagemap : U64)
    (system : System Heap) (procs : List U64) (call : SchedulerCall) : Prop where
  listed : ∀ proc ∈ procs, ∀ address, InRange proc processSize address →
    (call.apply files hhdmOffset kernelPagemap system).machine.memory address =
      system.machine.memory address
  record : ∀ making, call.making files hhdmOffset kernelPagemap system = some making →
    FreshRecord procs making (call.apply files hhdmOffset kernelPagemap system)

/-- Creations yield fresh records, interrupt frames lie in no record, and there is a
process to terminate; the exit of the last one is final. -/
def Roster.Allowed (files : Files Heap) (hhdmOffset kernelPagemap : U64) (roster : Roster Heap)
    (call : SchedulerCall) : Prop :=
  roster.idle = false ∧
    match call with
    | .tick interrupt => interrupt.Apart roster.records
    | .terminate => roster.system.scheduler.processCount ≠ 0#32
    | call => call.Fresh files hhdmOffset kernelPagemap roster.system roster.records

/-- `processes[0 .. process_count)` -/
def Scheduler.entries (scheduler : Scheduler) : List U64 :=
  (List.range scheduler.processCount.toNat).map fun slot =>
    scheduler.processes (BitVec.ofNat 32 slot)

theorem ProcessTable.entries (table : ProcessTable scheduler procs) :
    scheduler.entries = procs := by
  apply List.ext_getElem
  · rw [Scheduler.entries, List.length_map, List.length_range, table.count]
  · intro slot _ inside
    simp only [Scheduler.entries, List.getElem_map, List.getElem_range]
    exact table.listed slot _ (List.getElem?_eq_getElem inside)

theorem Scheduler.entries_push (scheduler : Scheduler) (proc : U64)
    (room : scheduler.processCount < maxProcesses) :
    (scheduler.push proc).entries = scheduler.entries ++ [proc] := by
  have small : scheduler.processCount.toNat < 256 := room
  have count : (scheduler.push proc).processCount.toNat = scheduler.processCount.toNat + 1 := by
    unfold Scheduler.push
    bv_omega
  have last : BitVec.ofNat 32 scheduler.processCount.toNat = scheduler.processCount :=
    BitVec.ofNat_toNat _ _ |>.trans (BitVec.setWidth_eq _)
  have below : ∀ slot ∈ List.range scheduler.processCount.toNat,
      (scheduler.push proc).processes (BitVec.ofNat 32 slot) =
        scheduler.processes (BitVec.ofNat 32 slot) := by
    intro slot membership
    apply Scheduler.push_other
    have bound := List.mem_range.mp membership
    bv_omega
  simp only [Scheduler.entries, count, List.range_succ, List.map_append, List.map_cons,
    List.map_nil, last, Scheduler.push_last, List.map_congr_left below]

/-! The list of processes -/

section Listed

variable {roster : Roster Heap}

theorem mem_listed {process : U64 × Nat} (membership : process ∈ roster.listed) :
    process.2 < roster.created.length := by
  obtain ⟨zipped, -⟩ := List.mem_filter.mp membership
  have bound := (List.mem_zipIdx zipped).2.1
  omega

theorem listed_numbers (roster : Roster Heap) : (roster.listed.map Prod.snd).Nodup := by
  have numbers : (roster.created.zipIdx.map Prod.snd).Nodup := by
    rw [List.zipIdx_map_snd]
    exact List.nodup_range'
  exact numbers.sublist (List.filter_sublist.map _)

/-- What is removed was created. -/
def Roster.Past (roster : Roster Heap) : Prop :=
  ∀ number ∈ roster.removed, number < roster.created.length

theorem listed_create (past : roster.Past) (record : U64) {system : System Heap} :
    Roster.listed { roster with system, created := roster.created ++ [record] } =
      roster.listed ++ [(record, roster.created.length)] := by
  have fresh : roster.created.length ∉ roster.removed := fun membership =>
    absurd (past _ membership) (Nat.lt_irrefl _)
  simp [Roster.listed, List.zipIdx_append, List.filter_append, fresh]

/-- Taking the process at an index out of the list. -/
theorem listed_remove {index number : Nat} {system : System Heap} {idle : Bool}
    (found : roster.listed[index]?.map Prod.snd = some number) :
    Roster.listed { roster with system, removed := roster.removed ++ [number], idle } =
      roster.listed.eraseIdx index := by
  obtain ⟨process, atIndex, rfl⟩ := Option.map_eq_some_iff.mp found
  obtain ⟨inside, isProcess⟩ := List.getElem?_eq_some_iff.mp atIndex
  have numbers := listed_numbers roster
  have distinct : roster.listed.Nodup := List.Nodup.of_map _ numbers
  have sameNumber : ∀ other ∈ roster.listed, other.2 = process.2 ↔ other = process := by
    intro other membership
    refine ⟨fun same => ?_, fun same => same ▸ rfl⟩
    exact List.inj_on_of_nodup_map numbers membership (List.mem_of_getElem? atIndex) same
  have filtered : Roster.listed
      { roster with system, removed := roster.removed ++ [process.2], idle } =
        roster.listed.filter fun other => other != process := by
    unfold Roster.listed
    rw [List.filter_filter]
    apply List.filter_congr
    intro other membership
    by_cases removed : other.2 ∈ roster.removed
    · simp [removed]
    · have inList : other ∈ roster.listed := by
        apply List.mem_filter.mpr
        exact ⟨membership, by simpa using removed⟩
      by_cases same : other = process
      · simp [same]
      · simp [removed, sameNumber other inList, same]
  rw [filtered, ← distinct.erase_eq_filter, ← isProcess, distinct.erase_getElem]

end Listed

/-! What one call does -/

/-- The stores of `process_create` after the request for the stack leave the pid. -/
theorem filledRecord_pid (last : Memory) (proc rsp pagemap name : U64) :
    Memory.load64 (filledRecord last proc rsp pagemap name) (processPid proc) =
      Memory.load64 last (processPid proc) := by
  apply load_of_same (by decide)
  intro address inPid
  unfold filledRecord
  rw [processRest_outside, Memory.store64, store_outside]
  · unfold InRange intFrameRsp processCtx processPid at *
    bv_omega
  · unfold InRange processPagemap processPid at *
    bv_omega

/-- A request for a page clears no other page. -/
theorem pmmRequestPage_outside {machine : Machine} {address : U64}
    (outside : ¬InRange (higherHalf hhdmOffset (pmmRequestPage hhdmOffset machine).1) 4096 address) :
    (pmmRequestPage hhdmOffset machine).2.memory address = machine.memory address := by
  by_cases empty : machine.free = []
  · rw [pmmRequestPage_empty empty]
  · rw [(pmmRequestPage_spec hhdmOffset empty).memory]
    exact fill_outside outside

/-- A process that `process_create` makes beside its stack has the next pid. -/
theorem processCreate_pid {entry pagemap name : U64}
    (nonnull : (processCreate hhdmOffset system entry pagemap name).1 ≠ 0#64)
    (beside : Separate (processCreate hhdmOffset system entry pagemap name).1 processSize
      (Memory.load64 (processCreate hhdmOffset system entry pagemap name).2.machine.memory
        (intFrameRsp (processCtx (processCreate hhdmOffset system entry pagemap name).1)) -
          4095#64) 4096) :
    (processCreate hhdmOffset system entry pagemap name).2.pidCounter =
        system.pidCounter + 1#64 ∧
      Memory.load64 (processCreate hhdmOffset system entry pagemap name).2.machine.memory
        (processPid (processCreate hhdmOffset system entry pagemap name).1) =
          system.pidCounter := by
  revert nonnull beside
  unfold processCreate
  generalize pmmRequestPage hhdmOffset system.machine = first
  obtain ⟨page, machine⟩ := first
  dsimp only
  by_cases noRecord : higherHalf hhdmOffset page = 0#64
  · rw [if_pos noRecord]
    exact fun nonnull => absurd rfl nonnull
  rw [if_neg noRecord]
  generalize higherHalf hhdmOffset page = proc at *
  have outside := @pmmRequestPage_outside hhdmOffset
    { machine with memory := processHead machine.memory proc system.pidCounter entry }
  generalize pmmRequestPage hhdmOffset _ = second at *
  obtain ⟨stack, last⟩ := second
  dsimp only at outside ⊢
  rw [Memory.load64_store64_same]
  by_cases noStack : higherHalf hhdmOffset stack + 4095#64 = 0#64
  · rw [if_pos noStack]
    exact fun nonnull => absurd rfl nonnull
  rw [if_neg noStack]
  intro _ beside
  dsimp only at beside
  rw [processRest_rsp, Memory.load64_store64_same, BitVec.add_sub_cancel] at beside
  refine ⟨rfl, ?_⟩
  have stored := filledRecord_pid last.memory proc (higherHalf hhdmOffset stack + 4095#64) pagemap
    name
  have kept : Memory.load64 last.memory (processPid proc) = Memory.load64
      (processHead machine.memory proc system.pidCounter entry) (processPid proc) := by
    apply load_of_same (by decide)
    intro address inPid
    apply outside
    apply beside
    unfold InRange processPid processSize at *
    bv_omega
  exact (stored.trans kept).trans (processHead_fields _ _ _ _).1

@[simp]
theorem processCreate_scheduler (system : System Heap) (entry pagemap name : U64) :
    (processCreate hhdmOffset system entry pagemap name).2.scheduler = system.scheduler := by
  unfold processCreate
  dsimp only
  split_ifs <;> rfl

/-- A call that makes a process. -/
structure SchedulerCall.Makes (system next : System Heap) (making : Making) : Prop where
  scheduler : next.scheduler = system.scheduler.push making.record
  room : system.scheduler.processCount < maxProcesses
  pid : making.record ≠ 0#64 →
    Separate making.record processSize (making.birth.rsp - 4095#64) 4096 →
    next.pidCounter = system.pidCounter + 1#64 ∧
      Memory.load64 making.after.memory (processPid making.record) = system.pidCounter

theorem SchedulerCall.makes {call : SchedulerCall} {making : Making}
    (isMaking : call.making files hhdmOffset kernelPagemap system = some making) :
    SchedulerCall.Makes system (call.apply files hhdmOffset kernelPagemap system) making := by
  cases call with
  | createProcess entry name =>
      simp only [SchedulerCall.making] at isMaking
      split_ifs at isMaking with full
      obtain rfl := Option.some.inj isMaking
      simp only [SchedulerCall.apply, schedulerCreateProcess, if_neg full]
      refine ⟨?_, BitVec.not_le.mp full, processCreate_pid⟩
      rw [processCreate_scheduler]
  | createElfProcess path name =>
      simp only [SchedulerCall.making] at isMaking
      split_ifs at isMaking with full
      simp only [SchedulerCall.apply, schedulerCreateElfProcess, if_neg full]
      generalize fetchFile files (system.heap, system.machine) path = fetched at *
      obtain ⟨found, heap, machine⟩ := fetched
      cases found with
      | none => cases isMaking
      | some opened =>
          dsimp only at *
          split_ifs at isMaking with failed
          obtain rfl := Option.some.inj isMaking
          rw [if_neg failed]
          refine ⟨?_, BitVec.not_le.mp full, processCreate_pid⟩
          dsimp only
          rw [processCreate_scheduler]
  | tick interrupt => cases isMaking
  | terminate => cases isMaking

/-- A creation that makes no process leaves the table and the pids alone. -/
theorem SchedulerCall.makesNone {call : SchedulerCall}
    (creation : (∃ entry name, call = .createProcess entry name) ∨
      ∃ path name, call = .createElfProcess path name)
    (noMaking : call.making files hhdmOffset kernelPagemap system = none) :
    (call.apply files hhdmOffset kernelPagemap system).scheduler = system.scheduler ∧
      (call.apply files hhdmOffset kernelPagemap system).pidCounter = system.pidCounter := by
  rcases creation with ⟨entry, name, rfl⟩ | ⟨path, name, rfl⟩
  · simp only [SchedulerCall.making] at noMaking
    split_ifs at noMaking with full
    simp only [SchedulerCall.apply, schedulerCreateProcess, if_pos full, and_self]
  · simp only [SchedulerCall.making] at noMaking
    simp only [SchedulerCall.apply, schedulerCreateElfProcess]
    split_ifs at noMaking ⊢ with full
    · exact ⟨rfl, rfl⟩
    · generalize fetchFile files (system.heap, system.machine) path = fetched at *
      obtain ⟨found, heap, machine⟩ := fetched
      cases found with
      | none => exact ⟨rfl, rfl⟩
      | some opened =>
          dsimp only at *
          split_ifs at noMaking with failed
          rw [if_pos failed]
          exact ⟨rfl, rfl⟩

end Nekonix
