import Nekonix.Proc.Scheduler.Roster
import Nekonix.Proc.Scheduler.Transparency

/-!
# The process table over a run

From `scheduler_init` on, `processes[0 .. process_count)` lists the processes
that were created and not taken out since, in the order of their creation, and
no call reads or writes a slot outside the array.
-/

namespace Nekonix

open FlatMemory Transition

variable {Heap : Type} {hhdmOffset kernelPagemap : U64} {files : Files Heap}
  {system : System Heap} {procs : List U64}

/-! The invariant of a run -/

/-- What holds after every call; `counter` is `pid_counter` at the start. -/
structure Roster.Kept (counter : U64) (roster : Roster Heap) : Prop where
  past : roster.Past
  table : ProcessTable roster.system.scheduler roster.records
  start : roster.idle = false → roster.records = [] →
    roster.system.scheduler.currentIndex = 0#32
  pidCounter : roster.system.pidCounter = counter + BitVec.ofNat 64 roster.created.length
  pids : ∀ process ∈ roster.listed,
    Memory.load64 roster.system.machine.memory (processPid process.1) =
      counter + BitVec.ofNat 64 process.2

theorem Roster.kept_begin (system : System Heap) :
    Roster.Kept system.pidCounter (Roster.begin system) := by
  refine
    { past := by simp [Roster.Past, Roster.begin]
      table := ?table
      start := fun _ _ => rfl
      pidCounter := (BitVec.add_zero _).symm
      pids := by simp [Roster.listed, Roster.begin] }
  change ProcessTable (schedulerInit system.scheduler) []
  exact .empty rfl

namespace Roster.Kept

variable {counter : U64} {roster : Roster Heap}

theorem records_mem {process : U64 × Nat} (membership : process ∈ roster.listed) :
    process.1 ∈ roster.records := List.mem_map_of_mem membership

theorem tick (kept : roster.Kept counter) {interrupt : Tick}
    (apart : interrupt.Apart roster.records) :
    Roster.Kept counter
      (roster.after files hhdmOffset kernelPagemap (.tick interrupt)) := by
  by_cases empty : roster.records = []
  · have noProcess : roster.system.scheduler.processCount = 0#32 := by
      have count := kept.table.count
      rw [empty] at count
      exact BitVec.eq_of_toNat_eq count
    have idle : interrupt.apply hhdmOffset roster.system =
        roster.system.interrupted interrupt.frame interrupt.context := by
      unfold Tick.apply timerInterruptHandler schedulerContextSwitch
      exact if_pos noProcess
    have noneListed : roster.listed = [] := List.map_eq_nil_iff.mp empty
    simp only [Roster.after, SchedulerCall.apply, idle]
    refine ⟨kept.past, kept.table, kept.start, kept.pidCounter, ?_⟩
    intro process membership
    change process ∈ roster.listed at membership
    rw [noneListed] at membership
    cases membership
  · have dispatched := interrupt.apply_spec hhdmOffset kept.table empty apart
    refine
      { past := kept.past
        table := kept.table.dispatch empty dispatched
        start := fun _ none => absurd none empty
        pidCounter := dispatched.pidCounter.trans kept.pidCounter
        pids := ?pids }
    intro process membership
    have record := dispatched.records process.1 (records_mem membership)
    exact (congrArg Process.pid record).trans (kept.pids process membership)

/-- A creation call without a new process. -/
theorem unmade (kept : roster.Kept counter) {next : System Heap}
    (scheduler : next.scheduler = roster.system.scheduler)
    (pidCounter : next.pidCounter = roster.system.pidCounter)
    (listed : ∀ proc ∈ roster.records, ∀ address, InRange proc processSize address →
      next.machine.memory address = roster.system.machine.memory address) :
    Roster.Kept counter { roster with system := next } := by
  refine
    { past := kept.past
      table := by rw [scheduler]; exact kept.table
      start := by rw [scheduler]; exact kept.start
      pidCounter := pidCounter.trans kept.pidCounter
      pids := ?pids }
  intro process membership
  have record := readProcess_congr (listed process.1 (records_mem membership))
  exact (congrArg Process.pid record).trans (kept.pids process membership)

/-- A creation call with a new process. -/
theorem made (kept : roster.Kept counter) {next : System Heap} {making : Making}
    (active : roster.idle = false)
    (makes : SchedulerCall.Makes roster.system next making)
    (fresh : FreshRecord roster.records making next)
    (listed : ∀ proc ∈ roster.records, ∀ address, InRange proc processSize address →
      next.machine.memory address = roster.system.machine.memory address) :
    Roster.Kept counter
      { roster with system := next, created := roster.created ++ [making.record] } := by
  have added := @listed_create _ _ kept.past making.record next
  obtain ⟨counted, pid⟩ := makes.pid fresh.nonnull fresh.stack
  refine
    { past := ?past
      table := ?table
      start := ?start
      pidCounter := ?pidCounter
      pids := ?pids }
  case past =>
    intro number membership
    exact (kept.past number membership).trans_le (by simp)
  case table =>
    rw [Roster.records, added, List.map_append, makes.scheduler]
    exact kept.table.push makes.room fresh.nonnull (kept.start active) fresh.listed
  case start =>
    intro _ none
    rw [Roster.records, added] at none
    simp at none
  case pidCounter =>
    rw [counted, kept.pidCounter, List.length_append, List.length_singleton, BitVec.ofNat_add,
      ← BitVec.add_assoc]
  case pids =>
    intro process membership
    rw [added] at membership
    rcases List.mem_append.mp membership with earlier | new
    · have record := readProcess_congr (listed process.1 (records_mem earlier))
      exact (congrArg Process.pid record).trans (kept.pids process earlier)
    · rw [List.mem_singleton.mp new, ← kept.pidCounter, ← pid]
      exact congrArg Process.pid (readProcess_congr fresh.kept)

theorem nonempty (kept : roster.Kept counter)
    (some : roster.system.scheduler.processCount ≠ 0#32) : roster.records ≠ [] := by
  have count := kept.table.count
  apply List.ne_nil_of_length_pos
  bv_omega

/-- The records after an exit that takes effect. -/
theorem remove (kept : roster.Kept counter) (nonempty : roster.records ≠ [])
    {next : System Heap} {idle : Bool} :
    Roster.listed
        { roster with
          system := next
          removed := roster.removed ++ roster.currentNumber.toList
          idle } =
      roster.listed.eraseIdx roster.system.scheduler.currentIndex.toNat ∧
    Roster.Past
        { roster with
          system := next
          removed := roster.removed ++ roster.currentNumber.toList
          idle } := by
  have below := kept.table.current nonempty
  rw [Roster.records, List.length_map] at below
  obtain ⟨process, atIndex⟩ :
      ∃ process, roster.listed[roster.system.scheduler.currentIndex.toNat]? = some process :=
    ⟨_, List.getElem?_eq_getElem below⟩
  have isCurrent : roster.currentNumber = some process.2 := by
    rw [Roster.currentNumber, atIndex, Option.map_some]
  have created : process.2 < roster.created.length := mem_listed (List.mem_of_getElem? atIndex)
  rw [isCurrent]
  refine ⟨listed_remove isCurrent, ?_⟩
  intro number membership
  rcases List.mem_append.mp membership with earlier | new
  · exact kept.past number earlier
  · rw [List.mem_singleton.mp new]
    exact created

/-- An exit stays in `scheduler_idle` where it ends the last process. -/
theorem terminate_idle (running : Running roster.system.scheduler roster.system.machine.memory) :
    (schedulerTerminateCurrentProcess roster.system).1 = false ↔
      roster.system.scheduler.processCount - 1#32 = 0#32 := by
  have isRunning : ¬Memory.load32 roster.system.machine.memory
      (processState (currentProcess roster.system.scheduler)) ≠ ProcessState.running.code :=
    not_not.mpr running
  unfold schedulerTerminateCurrentProcess
  dsimp only
  rw [if_neg isRunning]
  split
  next last => simp [last]
  next more => simp [more]

theorem terminate (kept : roster.Kept counter)
    (some : roster.system.scheduler.processCount ≠ 0#32) :
    Roster.Kept counter (roster.after files hhdmOffset kernelPagemap .terminate) := by
  have nonempty := kept.nonempty some
  by_cases running : Running roster.system.scheduler roster.system.machine.memory
  · have terminated := schedulerTerminateCurrentProcess_spec running
    have survivorsTable := terminated.table_left kept.table nonempty
    obtain ⟨removed, past⟩ := @remove _ _ _ kept nonempty
      (schedulerTerminateCurrentProcess roster.system).2
      (!(schedulerTerminateCurrentProcess roster.system).1)
    have idle := terminate_idle running
    simp only [Roster.after, SchedulerCall.apply, if_pos running]
    generalize schedulerTerminateCurrentProcess roster.system = result at *
    have left : Roster.records
        { roster with
          system := result.2
          removed := roster.removed ++ roster.currentNumber.toList
          idle := !result.1 } = survivors roster.system.scheduler roster.records := by
      rw [Roster.records, removed, survivors, Roster.records, List.eraseIdx_map]
    refine
      { past := past
        table := by rw [left]; exact survivorsTable
        start := ?start
        pidCounter := terminated.pidCounter.trans kept.pidCounter
        pids := ?pids }
    case start =>
      intro active none
      rw [left] at none
      have count := survivorsTable.count
      rw [none, terminated.processCount] at count
      have last := idle.mpr (BitVec.eq_of_toNat_eq count)
      simp [last] at active
    case pids =>
      intro process membership
      rw [removed] at membership
      have inSurvivors : process.1 ∈ survivors roster.system.scheduler roster.records := by
        rw [← left, Roster.records, removed]
        exact List.mem_map_of_mem membership
      have record := terminated.survivor kept.table nonempty inSurvivors
      exact (congrArg Process.pid record).trans
        (kept.pids process (List.mem_of_mem_eraseIdx membership))
  · have unchanged := schedulerTerminateCurrentProcess_idle running
    simp only [Roster.after, SchedulerCall.apply, if_neg running, unchanged]
    exact kept

theorem after (kept : roster.Kept counter) {call : SchedulerCall}
    (allowed : roster.Allowed files hhdmOffset kernelPagemap call) :
    Roster.Kept counter (roster.after files hhdmOffset kernelPagemap call) := by
  obtain ⟨active, allowed⟩ := allowed
  -- both kinds of creation: with a new process or without one
  have creation : ∀ call : SchedulerCall,
      ((∃ entry name, call = .createProcess entry name) ∨
        ∃ path name, call = .createElfProcess path name) →
      call.Fresh files hhdmOffset kernelPagemap roster.system roster.records →
      Roster.Kept counter
        { roster with
          system := call.apply files hhdmOffset kernelPagemap roster.system
          created := roster.created ++
            ((call.making files hhdmOffset kernelPagemap roster.system).map
              Making.record).toList } := by
    intro call creation fresh
    cases isMaking : call.making files hhdmOffset kernelPagemap roster.system with
    | none =>
        obtain ⟨scheduler, pidCounter⟩ := SchedulerCall.makesNone creation isMaking
        simpa using kept.unmade scheduler pidCounter fresh.listed
    | some making =>
        exact kept.made active (SchedulerCall.makes isMaking) (fresh.record making isMaking)
          fresh.listed
  cases call with
  | createProcess entry name => exact creation _ (.inl ⟨entry, name, rfl⟩) allowed
  | createElfProcess path name => exact creation _ (.inr ⟨path, name, rfl⟩) allowed
  | tick interrupt => exact kept.tick allowed
  | terminate => exact kept.terminate allowed

theorem of_run {calls : List SchedulerCall}
    (run : Run (guarded (Roster.after files hhdmOffset kernelPagemap)
      (Roster.Allowed files hhdmOffset kernelPagemap)) (Roster.begin system) calls roster) :
    Roster.Kept system.pidCounter roster := by
  refine run.invariant (Roster.Kept system.pidCounter) (kept_begin system) ?_
  rintro before call after kept ⟨allowed, rfl⟩
  exact kept.after allowed

end Roster.Kept

/-! What the table is after every call -/

/-- The table lists the processes that were created and not removed. -/
structure Roster.Intact (roster : Roster Heap) : Prop where
  bound : roster.system.scheduler.processCount ≤ maxProcesses
  current : roster.system.scheduler.processCount > 0#32 →
    roster.system.scheduler.currentIndex < roster.system.scheduler.processCount
  entries : roster.system.scheduler.entries = roster.records
  once : roster.records.Nodup
  pids : (roster.records.map fun proc =>
    Memory.load64 roster.system.machine.memory (processPid proc)).Nodup

/-- A call that keeps to the array, appends what it creates and removes the process
that exits, and nothing else. -/
structure Roster.InOrder (files : Files Heap) (hhdmOffset kernelPagemap : U64)
    (roster : Roster Heap) (call : SchedulerCall) : Prop where
  inBounds : ∀ slot ∈ call.accesses files hhdmOffset kernelPagemap roster.system,
    slot < maxProcesses
  creates : ∀ making, call.making files hhdmOffset kernelPagemap roster.system = some making →
    (call.apply files hhdmOffset kernelPagemap roster.system).scheduler =
        roster.system.scheduler.push making.record ∧
      (call.apply files hhdmOffset kernelPagemap roster.system).scheduler.entries =
        roster.system.scheduler.entries ++ [making.record]
  removes : call = .terminate →
    Running roster.system.scheduler roster.system.machine.memory →
    (call.apply files hhdmOffset kernelPagemap roster.system).scheduler.entries =
      roster.system.scheduler.entries.eraseIdx roster.system.scheduler.currentIndex.toNat

namespace Roster.Kept

variable {counter : U64} {roster : Roster Heap}

theorem intact (kept : roster.Kept counter) (few : roster.created.length < 2 ^ 64) :
    roster.Intact := by
  have count := kept.table.count
  refine
    { bound := ?bound
      current := ?current
      entries := kept.table.entries
      once := kept.table.nodup
      pids := ?pids }
  case bound =>
    have bound := kept.table.bound
    unfold maxProcesses
    bv_omega
  case current =>
    intro some
    have nonempty : roster.records ≠ [] := by
      apply List.ne_nil_of_length_pos
      bv_omega
    have below := kept.table.current nonempty
    bv_omega
  case pids =>
    have numbers := listed_numbers roster
    have same : roster.records.map
        (fun proc => Memory.load64 roster.system.machine.memory (processPid proc)) =
        (roster.listed.map Prod.snd).map fun number => counter + BitVec.ofNat 64 number := by
      rw [Roster.records, List.map_map, List.map_map]
      exact List.map_congr_left kept.pids
    rw [same]
    refine numbers.map_on ?_
    intro first firstIn second secondIn equal
    obtain ⟨firstProcess, firstListed, rfl⟩ := List.mem_map.mp firstIn
    obtain ⟨secondProcess, secondListed, rfl⟩ := List.mem_map.mp secondIn
    have firstBound := mem_listed firstListed
    have secondBound := mem_listed secondListed
    have offsets := (BitVec.add_right_inj _).mp equal
    bv_omega

/-- No call reads or writes outside the array. -/
theorem inBounds (kept : roster.Kept counter) {call : SchedulerCall}
    (allowed : roster.Allowed files hhdmOffset kernelPagemap call) :
    ∀ slot ∈ call.accesses files hhdmOffset kernelPagemap roster.system,
      slot < maxProcesses := by
  have count := kept.table.count
  have bound := kept.table.bound
  have creation : ∀ call : SchedulerCall,
      ∀ slot ∈ if (call.making files hhdmOffset kernelPagemap roster.system).isSome then
          [roster.system.scheduler.processCount] else [],
        slot < maxProcesses := by
    intro call slot membership
    split at membership
    next makes =>
      obtain ⟨making, isMaking⟩ := Option.isSome_iff_exists.mp makes
      rw [List.mem_singleton.mp membership]
      exact (SchedulerCall.makes isMaking).room
    next => cases membership
  have small : ∀ slot : U32, slot.toNat < roster.records.length → slot < maxProcesses := by
    intro slot below
    unfold maxProcesses
    bv_omega
  cases call with
  | createProcess entry name => exact creation _
  | createElfProcess path name => exact creation _
  | tick interrupt =>
      intro slot membership
      simp only [SchedulerCall.accesses] at membership
      split at membership
      next => cases membership
      next some =>
        have nonempty := kept.nonempty some
        apply small
        rcases List.mem_cons.mp membership with rfl | next
        · exact kept.table.current nonempty
        · rw [List.mem_singleton.mp next]
          exact kept.table.nextIndex_lt nonempty
  | terminate =>
      intro slot membership
      have nonempty := kept.nonempty allowed.2
      apply small
      rcases List.mem_cons.mp membership with rfl | shifted
      · exact kept.table.current nonempty
      · split at shifted
        next =>
          have last := (mem_shiftAccesses shifted).2
          have some := allowed.2
          bv_omega
        next => cases shifted

theorem inOrder (kept : roster.Kept counter) {call : SchedulerCall}
    (allowed : roster.Allowed files hhdmOffset kernelPagemap call) :
    roster.InOrder files hhdmOffset kernelPagemap call := by
  refine ⟨kept.inBounds allowed, ?_, ?_⟩
  · intro making isMaking
    have makes := SchedulerCall.makes isMaking
    refine ⟨makes.scheduler, ?_⟩
    rw [makes.scheduler]
    exact Scheduler.entries_push _ _ makes.room
  · rintro rfl running
    have nonempty := kept.nonempty allowed.2
    rw [kept.table.entries]
    have terminated := schedulerTerminateCurrentProcess_spec running
    exact (terminated.table_left kept.table nonempty).entries

end Roster.Kept

/-! Creations that find their frames -/

section Supplied

variable {kernel : Frame} {held : Heap → Set Frame} {call : SchedulerCall} {making : Making}

/-- A record on a frame that was free is fresh. -/
theorem Bearing.freshRecord {next : System Heap} {owned : Owned} {heap : Heap}
    {fresh loaded : Machine} {visits : List PageVisit} {mappings : List Mapping}
    (bearing : Bearing hhdmOffset kernel held system next making owned heap fresh visits mappings
      loaded)
    (records : ∀ proc ∈ procs, ∃ frame : Frame, frame.pointer hhdmOffset = proc ∧
      Private hhdmOffset kernel held system.state frame) :
    FreshRecord procs making next := by
  have sound := bearing.earlier.sound
  have isRecord : making.record = owned.record.pointer hhdmOffset :=
    congrArg Birth.record bearing.birth
  have distinct : owned.record ≠ owned.stack := by
    have nodup := bearing.newborn.nodup
    unfold Owned.frames at nodup
    have last := (List.nodup_append.mp (List.nodup_cons.mp nodup).2).2.1
    simpa using last
  have inRecordFrame : ∀ address, InRange making.record processSize address →
      owned.record.Holds hhdmOffset address := by
    rw [isRecord]
    exact fun address inRecord => inRecord.mono (by decide)
  refine
    { nonnull := isRecord ▸ bearing.nonnull
      listed := ?listed
      stack := ?stack
      kept := ?kept }
  case listed =>
    intro proc membership address inProc inRecord
    obtain ⟨frame, rfl, isPrivate⟩ := records proc membership
    have inFrame : frame.Holds hhdmOffset address := inProc.mono (by decide)
    apply bearing.newborn.fresh owned.record (by simp [Owned.frames])
    rw [← inFrame.unique (inRecordFrame address inRecord)]
    exact isPrivate.withheld
  case stack =>
    intro address inRecord inStack
    rw [bearing.birth, Owned.birth, BitVec.add_sub_cancel] at inStack
    exact distinct ((inRecordFrame address inRecord).unique inStack)
  case kept =>
    obtain ⟨-, recordPrivate, -⟩ := bearing.building.careful sound
    obtain ⟨-, same⟩ := bearing.later.kept _ recordPrivate
    exact fun address inRecord => same address (inRecordFrame address inRecord)

/-- Where the listed records are private, a creation that finds its frames is fresh. -/
theorem SchedulerCall.fresh_of_supplied (respects : files.Respects hhdmOffset kernel held)
    (sound : Sound hhdmOffset kernel held system.state)
    (supplied : call.Supplied files hhdmOffset (kernel.pointer hhdmOffset) system)
    (records : ∀ proc ∈ procs, ∃ frame : Frame, frame.pointer hhdmOffset = proc ∧
      Private hhdmOffset kernel held system.state frame)
    (creation : (∃ entry name, call = .createProcess entry name) ∨
      ∃ path name, call = .createElfProcess path name) :
    call.Fresh files hhdmOffset (kernel.pointer hhdmOffset) system procs := by
  have careful : Careful hhdmOffset kernel held system.state
      (call.apply files hhdmOffset (kernel.pointer hhdmOffset) system).state := by
    cases isMaking : call.making files hhdmOffset (kernel.pointer hhdmOffset) system with
    | some making =>
        obtain ⟨owned, heap, fresh, mappings, loaded, bearing⟩ :=
          SchedulerCall.bearing respects sound supplied isMaking
        exact bearing.newborn.careful
    | none =>
        rcases creation with ⟨entry, name, rfl⟩ | ⟨path, name, rfl⟩
        · simp only [SchedulerCall.making] at isMaking
          split_ifs at isMaking with full
          simp only [SchedulerCall.apply, schedulerCreateProcess, if_pos full]
          exact .refl sound
        · exact (SchedulerCall.unborn respects sound supplied isMaking).1
  constructor
  · intro proc membership address inRecord
    obtain ⟨frame, rfl, isPrivate⟩ := records proc membership
    exact (careful.kept frame isPrivate).2 address (inRecord.mono (by decide))
  · intro making isMaking
    obtain ⟨owned, heap, fresh, mappings, loaded, bearing⟩ :=
      SchedulerCall.bearing respects sound supplied isMaking
    exact bearing.freshRecord records

end Supplied

/-! The result -/

/-- From `scheduler_init` on, the table lists the processes in the order of their
creation, whatever creations, ticks and exits follow. -/
theorem process_table_intact {calls : List SchedulerCall} {roster : Roster Heap}
    (run : Run (guarded (Roster.after files hhdmOffset kernelPagemap)
      (Roster.Allowed files hhdmOffset kernelPagemap)) (Roster.begin system) calls roster)
    (few : roster.created.length < 2 ^ 64) :
    roster.Intact ∧ ∀ call, roster.Allowed files hhdmOffset kernelPagemap call →
      roster.InOrder files hhdmOffset kernelPagemap call := by
  have kept := Roster.Kept.of_run run
  exact ⟨kept.intact few, fun _ allowed => kept.inOrder allowed⟩

/-- One creation with nine free frames, before an exit. -/
theorem process_table_intact_created :
    ∃ roster : Roster Unit, roster.created ≠ [] ∧ roster.Intact ∧
      roster.InOrder noFiles 0#64 (Frame.pointer 0#64 1#40) .terminate := by
  have sound := @System.sound_cleared 0#64 9 (by decide)
  have mapped : DirectlyMapped 0#64 (Roster.begin (System.cleared 9)).system.machine :=
    Machine.directlyMapped_cleared (by decide)
  have free : (Roster.begin (System.cleared 9)).system.machine.free = _ :=
    Machine.free_cleared (by decide)
  have enough : 3 ≤ (Roster.begin (System.cleared 9)).system.machine.free.length := by
    rw [free, List.length_map, List.length_range]
    decide
  have supplied : (SchedulerCall.createProcess 0#64 0#64).Supplied noFiles 0#64
      (Frame.pointer 0#64 1#40) (Roster.begin (System.cleared 9)).system := ⟨mapped, enough⟩
  obtain ⟨making, owned, fresh, mappings, loaded, isMaking, bearing⟩ :=
    @schedulerCreateProcess_bearing _ _ _ _ noFiles (Roster.begin (System.cleared 9)).system
      0#64 0#64 sound (by decide) mapped enough
  have allowed : (Roster.begin (System.cleared 9)).Allowed noFiles 0#64 (Frame.pointer 0#64 1#40)
      (.createProcess 0#64 0#64) := by
    refine ⟨rfl, SchedulerCall.fresh_of_supplied noFiles_respects sound supplied ?_
      (.inl ⟨_, _, rfl⟩)⟩
    simp [Roster.records, Roster.listed, Roster.begin]
  have created : ((Roster.begin (System.cleared 9)).after noFiles 0#64 (Frame.pointer 0#64 1#40)
      (.createProcess 0#64 0#64)).created = [making.record] := by
    simp only [Roster.after, isMaking]
    rfl
  have exit : ((Roster.begin (System.cleared 9)).after noFiles 0#64 (Frame.pointer 0#64 1#40)
      (.createProcess 0#64 0#64)).Allowed noFiles 0#64 (Frame.pointer 0#64 1#40) .terminate := by
    refine ⟨rfl, ?_⟩
    simp only [Roster.after, bearing.scheduler]
    change 0#32 + 1#32 ≠ 0#32
    decide
  obtain ⟨intact, inOrder⟩ := process_table_intact (Run.single ⟨allowed, rfl⟩) (by
    rw [created, List.length_singleton]
    decide)
  refine ⟨_, ?_, intact, inOrder _ exit⟩
  rw [created]
  exact List.cons_ne_nil _ _

end Nekonix
