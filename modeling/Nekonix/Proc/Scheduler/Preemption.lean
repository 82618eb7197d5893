import Nekonix.Proc.Scheduler.Births

/-!
# Preemption

What holds of a history in which every creation finds its frames and nothing
exits: the records are private, the process dispatched last is the one at
`current_index`, and every record has the context that was stored for it last.
-/

namespace Nekonix

open FlatMemory RadixTable Transition

variable {Heap : Type} {hhdmOffset : U64} {kernel : Frame} {held : Heap → Set Frame}
  {files : Files Heap} {history : History Heap} {owneds : List Owned} {owned : Owned}
  {system next : System Heap}

/-- The interrupt frame lies in no record and in no table of the kernel. -/
structure Tick.Safe (hhdmOffset : U64) (kernel : Frame) (history : History Heap)
    (interrupt : Tick) : Prop where
  records : interrupt.Apart (history.births.map Birth.record)
  tables : ∀ address, InRange interrupt.frame intFrameSize address →
    ∀ path ∈ within (Set.univ : Set Slot), ∀ table,
      follow pageFormat (tables hhdmOffset history.system.machine.memory) kernel path =
        some table →
      ¬table.Holds hhdmOffset address

/-- The creations find their frames, and no exit takes effect. -/
def History.Allowed (files : Files Heap) (hhdmOffset : U64) (kernel : Frame)
    (history : History Heap) (call : SchedulerCall) : Prop :=
  match call with
  | .tick interrupt => interrupt.Safe hhdmOffset kernel history
  | .terminate => ¬Running history.system.scheduler history.system.machine.memory
  | call => history.system.scheduler.processCount < maxProcesses →
      call.Supplied files hhdmOffset (kernel.pointer hhdmOffset) history.system

/-- The state of a history without losses. -/
structure Orderly (hhdmOffset : U64) (kernel : Frame) (held : Heap → Set Frame)
    (owneds : List Owned) (history : History Heap) : Prop where
  sound : Sound hhdmOffset kernel held history.system.state
  births : history.births = owneds.map (Owned.birth hhdmOffset)
  table : ProcessTable history.system.scheduler (history.births.map Birth.record)
  start : owneds = [] → history.system.scheduler.currentIndex = 0#32
  nodup : (owneds.flatMap Owned.frames).Nodup
  withheld : ∀ owned ∈ owneds, ∀ frame ∈ owned.frames,
    Withheld held history.system.state frame
  record : ∀ owned ∈ owneds, Private hhdmOffset kernel held history.system.state owned.record
  pagemap : ∀ birth ∈ history.births,
    (readProcess history.system.machine.memory birth.record).pagemap = birth.pagemap
  owner : history.owner =
    if history.births ≠ [] ∧ Running history.system.scheduler history.system.machine.memory then
      some history.system.scheduler.currentIndex.toNat
    else none
  stored : ∀ index birth, history.births[index]? = some birth →
    (lastAt Prod.fst history.stored index).map Prod.snd =
      some (readProcess history.system.machine.memory birth.record).ctx

/-- Where the bytes of the kernel's tables stay, so does all that depends on them. -/
theorem Sound.write {heap : Heap} {machine : Machine} {memory : Memory}
    (sound : Sound hhdmOffset kernel held (heap, machine))
    (same : SameTables hhdmOffset kernel Set.univ machine.memory memory) :
    Sound hhdmOffset kernel held (heap, { machine with memory }) ∧
      ∀ frame, Private hhdmOffset kernel held (heap, machine) frame →
        Private hhdmOffset kernel held (heap, { machine with memory }) frame := by
  refine ⟨⟨sound.usable, same.space sound.space fun _ free => free, sound.heap⟩, ?_⟩
  intro frame wasPrivate
  refine ⟨⟨wasPrivate.inUse.notFree, ?_⟩, wasPrivate.notHeap⟩
  intro path membership reached
  rw [same.follow membership] at reached
  exact wasPrivate.inUse.notTable path membership reached

/-- An exit while no process runs has no effect. -/
theorem History.after_idleExit
    (idle : ¬Running history.system.scheduler history.system.machine.memory) :
    history.after files hhdmOffset (kernel.pointer hhdmOffset) .terminate = history := by
  have unchanged := schedulerTerminateCurrentProcess_idle idle
  simp [History.after, SchedulerCall.apply, unchanged]

namespace Orderly

theorem record_mem (orderly : Orderly hhdmOffset kernel held owneds history) {proc : U64}
    (membership : proc ∈ history.births.map Birth.record) :
    ∃ owned ∈ owneds, owned.record.pointer hhdmOffset = proc := by
  rw [orderly.births, List.map_map, List.mem_map] at membership
  exact membership

theorem births_eq_nil_iff (orderly : Orderly hhdmOffset kernel held owneds history) :
    history.births = [] ↔ owneds = [] := by
  rw [orderly.births, List.map_eq_nil_iff]

/-- The bytes that an interrupt may change are in no table of the kernel. -/
theorem sameTables (orderly : Orderly hhdmOffset kernel held owneds history) {interrupt : Tick}
    {memory : Memory} (safe : interrupt.Safe hhdmOffset kernel history)
    (outside : ∀ address, ¬InRange interrupt.frame intFrameSize address →
      (∀ proc ∈ history.births.map Birth.record, ¬InRange proc processSize address) →
      memory address = history.system.machine.memory address) :
    SameTables hhdmOffset kernel Set.univ history.system.machine.memory memory := by
  intro path membership table reached address inTable
  apply outside
  · intro inFrame
    exact safe.tables address inFrame path membership table reached inTable
  · intro proc listed inRecord
    obtain ⟨owned, isOwned, rfl⟩ := orderly.record_mem listed
    have inFrame : owned.record.Holds hhdmOffset address :=
      inRecord.mono (by decide)
    obtain rfl := inFrame.unique inTable
    exact (orderly.record owned isOwned).inUse.notTable path membership reached

/-- A tick before the first process is created. -/
theorem idleTick (orderly : Orderly hhdmOffset kernel held owneds history) {interrupt : Tick}
    (safe : interrupt.Safe hhdmOffset kernel history) (empty : history.births = []) :
    Orderly hhdmOffset kernel held owneds
      (history.after files hhdmOffset (kernel.pointer hhdmOffset) (.tick interrupt)) := by
  have noProcess : history.system.scheduler.processCount = 0#32 := by
    have count := orderly.table.count
    rw [empty] at count
    exact BitVec.eq_of_toNat_eq count
  have idle : interrupt.apply hhdmOffset history.system =
      history.system.interrupted interrupt.frame interrupt.context := by
    unfold Tick.apply timerInterruptHandler schedulerContextSwitch
    exact if_pos noProcess
  have none : history.owner = none := by
    rw [orderly.owner, if_neg fun both => both.1 empty]
  have same := orderly.sameTables safe fun address offFrame _ =>
    @writeContext_outside history.system.machine.memory _ interrupt.context _ offFrame
  obtain ⟨sound, -⟩ := orderly.sound.write same
  have after : history.after files hhdmOffset (kernel.pointer hhdmOffset) (.tick interrupt) =
      { history with system := history.system.interrupted interrupt.frame interrupt.context } := by
    simp [History.after, SchedulerCall.apply, idle, empty, none]
  have noOwned := orderly.births_eq_nil_iff.mp empty
  subst noOwned
  rw [after]
  exact
    { sound := sound
      births := orderly.births
      table := orderly.table
      start := orderly.start
      nodup := orderly.nodup
      withheld := by simp
      record := by simp
      pagemap := by simp [empty]
      owner := by rw [none, if_neg fun both => both.1 empty]
      stored := by simp [empty] }

/-- What a tick does once there are processes. -/
theorem dispatched (orderly : Orderly hhdmOffset kernel held owneds history) {interrupt : Tick}
    (safe : interrupt.Safe hhdmOffset kernel history) (nonempty : history.births ≠ []) :
    Dispatched hhdmOffset (history.births.map Birth.record) interrupt.frame interrupt.context
      history.system (interrupt.apply hhdmOffset history.system) :=
  interrupt.apply_spec hhdmOffset orderly.table (by simpa using nonempty) safe.records

theorem busyTick (orderly : Orderly hhdmOffset kernel held owneds history) {interrupt : Tick}
    (safe : interrupt.Safe hhdmOffset kernel history) (nonempty : history.births ≠ []) :
    Orderly hhdmOffset kernel held owneds
      (history.after files hhdmOffset (kernel.pointer hhdmOffset) (.tick interrupt)) := by
  have listed : history.births.map Birth.record ≠ [] := by simpa using nonempty
  have dispatched := orderly.dispatched safe nonempty
  obtain ⟨isNext, running⟩ := dispatched.running orderly.table listed
  have same := orderly.sameTables safe dispatched.outside
  obtain ⟨sound, stillPrivate⟩ := orderly.sound.write same
  have after : history.after files hhdmOffset (kernel.pointer hhdmOffset) (.tick interrupt) =
      { history with
        system := interrupt.apply hhdmOffset history.system
        owner := some (interrupt.apply hhdmOffset history.system).scheduler.currentIndex.toNat
        stored := history.stored ++
          (history.owner.map fun owner => (owner, interrupt.context)).toList } := by
    simp [History.after, SchedulerCall.apply, nonempty]
  have state : (interrupt.apply hhdmOffset history.system).state =
      (history.system.heap, { history.system.machine with
        memory := (interrupt.apply hhdmOffset history.system).machine.memory }) := by
    have stack := dispatched.stack
    rw [System.state, dispatched.heap]
    simp only [← stack]
  have below := orderly.table.current listed
  have wasOwner := orderly.owner
  rw [after]
  generalize interrupt.apply hhdmOffset history.system = system at *
  refine
    { sound := by rw [state]; exact sound
      births := orderly.births
      table := orderly.table.dispatch listed dispatched
      start := fun empty => absurd (orderly.births_eq_nil_iff.mpr empty) nonempty
      nodup := orderly.nodup
      withheld := ?withheld
      record := ?record
      pagemap := ?pagemap
      owner := ?owner
      stored := ?stored }
  case withheld =>
    intro owned isOwned frame membership
    rw [state]
    exact orderly.withheld owned isOwned frame membership
  case record =>
    intro owned isOwned
    rw [state]
    exact stillPrivate _ (orderly.record owned isOwned)
  case pagemap =>
    intro birth isBirth
    rw [dispatched.records _ (List.mem_map_of_mem isBirth)]
    exact orderly.pagemap birth isBirth
  case owner => rw [if_pos ⟨nonempty, running⟩]
  case stored =>
    intro index birth atIndex
    have isBirth := List.mem_of_getElem? atIndex
    have isCurrent : birth.record = currentProcess history.system.scheduler ↔
        index = history.system.scheduler.currentIndex.toNat := by
      apply orderly.table.eq_iff_index below
      rw [List.getElem?_map, atIndex]
      rfl
    rw [dispatched.records _ (List.mem_map_of_mem isBirth), Process.dispatched]
    dsimp only
    rw [wasOwner]
    by_cases before : Running history.system.scheduler history.system.machine.memory
    · rw [if_pos ⟨nonempty, before⟩, Option.map_some, Option.toList_some, lastAt_snoc]
      by_cases here : index = history.system.scheduler.currentIndex.toNat
      · rw [if_pos here.symm, if_pos ⟨isCurrent.mpr here, before⟩]
        rfl
      · rw [if_neg fun same => here same.symm, if_neg fun both => here (isCurrent.mp both.1)]
        exact orderly.stored index birth atIndex
    · rw [if_neg fun both => before both.2, Option.map_none, Option.toList_none, List.append_nil,
        if_neg fun both => before both.2]
      exact orderly.stored index birth atIndex

theorem tick (orderly : Orderly hhdmOffset kernel held owneds history) {interrupt : Tick}
    (safe : interrupt.Safe hhdmOffset kernel history) :
    Orderly hhdmOffset kernel held owneds
      (history.after files hhdmOffset (kernel.pointer hhdmOffset) (.tick interrupt)) := by
  by_cases empty : history.births = []
  · exact orderly.idleTick safe empty
  · exact orderly.busyTick safe empty

/-- A call that keeps private frames keeps the listed records. -/
theorem process_kept (orderly : Orderly hhdmOffset kernel held owneds history)
    {next : System Heap} (careful : Careful hhdmOffset kernel held history.system.state next.state)
    {birth : Birth} (isBirth : birth ∈ history.births) :
    readProcess next.machine.memory birth.record =
      readProcess history.system.machine.memory birth.record := by
  obtain ⟨owned, isOwned, isRecord⟩ := orderly.record_mem (List.mem_map_of_mem isBirth)
  rw [← isRecord]
  apply readProcess_congr
  intro address inRecord
  exact (careful.kept _ (orderly.record owned isOwned)).2 address
    (inRecord.mono (by decide))

/-- While `current_index` leads to the same record, it runs or does not run as before. -/
theorem running_kept (orderly : Orderly hhdmOffset kernel held owneds history)
    {next : System Heap} (careful : Careful hhdmOffset kernel held history.system.state next.state)
    (nonempty : history.births ≠ [])
    (same : currentProcess next.scheduler = currentProcess history.system.scheduler) :
    Running next.scheduler next.machine.memory ↔
      Running history.system.scheduler history.system.machine.memory := by
  have listed : history.births.map Birth.record ≠ [] := by simpa using nonempty
  obtain ⟨birth, isBirth, isCurrent⟩ := List.mem_map.mp (orderly.table.current_mem listed)
  unfold Running
  rw [same, ← isCurrent, orderly.process_kept careful isBirth]

/-- A creation that adds no process. -/
theorem unborn (orderly : Orderly hhdmOffset kernel held owneds history) {next : System Heap}
    (careful : Careful hhdmOffset kernel held history.system.state next.state)
    (scheduler : next.scheduler = history.system.scheduler) :
    Orderly hhdmOffset kernel held owneds { history with system := next } := by
  have running : history.births ≠ [] → (Running history.system.scheduler next.machine.memory ↔
      Running history.system.scheduler history.system.machine.memory) := by
    intro nonempty
    have kept := orderly.running_kept careful nonempty (by rw [scheduler])
    rwa [scheduler] at kept
  refine
    { sound := careful.sound
      births := orderly.births
      table := by rw [scheduler]; exact orderly.table
      start := fun empty => by rw [scheduler]; exact orderly.start empty
      nodup := orderly.nodup
      withheld := ?withheld
      record := fun owned isOwned => (careful.kept _ (orderly.record owned isOwned)).1
      pagemap := ?pagemap
      owner := ?owner
      stored := ?stored }
  case withheld =>
    intro owned isOwned frame membership
    obtain ⟨notFree, notHeap⟩ := orderly.withheld owned isOwned frame membership
    exact careful.notFreed frame notFree notHeap
  case pagemap =>
    intro birth isBirth
    rw [orderly.process_kept careful isBirth]
    exact orderly.pagemap birth isBirth
  case owner =>
    rw [orderly.owner]
    simp only [scheduler, and_congr_right_iff.mpr running]
  case stored =>
    intro index birth atIndex
    rw [orderly.process_kept careful (List.mem_of_getElem? atIndex)]
    exact orderly.stored index birth atIndex

/-- A new record shares no byte with the listed ones. -/
theorem record_separate (orderly : Orderly hhdmOffset kernel held owneds history)
    {next : System Heap} (born : Newborn hhdmOffset kernel held history.system next owned)
    {proc : U64} (listed : proc ∈ history.births.map Birth.record) :
    Separate proc processSize (owned.record.pointer hhdmOffset) processSize := by
  obtain ⟨other, isOwned, rfl⟩ := orderly.record_mem listed
  intro address inOther inNew
  have inOtherFrame : other.record.Holds hhdmOffset address :=
    inOther.mono (by decide)
  have inNewFrame : owned.record.Holds hhdmOffset address := inNew.mono (by decide)
  have fresh := born.fresh owned.record (by simp [Owned.frames])
  rw [← inOtherFrame.unique inNewFrame] at fresh
  exact fresh (orderly.record other isOwned).withheld

/-- Until a new process is the only one, `current_index` leads where it led before. -/
theorem current_newborn (orderly : Orderly hhdmOffset kernel held owneds history)
    {next : System Heap} (born : Newborn hhdmOffset kernel held history.system next owned)
    (nonempty : history.births ≠ []) :
    currentProcess next.scheduler = currentProcess history.system.scheduler := by
  have listed : history.births.map Birth.record ≠ [] := by simpa using nonempty
  rw [born.scheduler]
  apply Function.update_of_ne
  intro atEnd
  have below := orderly.table.current listed
  change history.system.scheduler.currentIndex = _ at atEnd
  rw [atEnd, orderly.table.count] at below
  exact Nat.lt_irrefl _ below

/-- The first process is the one at `current_index`, and has not run. -/
theorem idle_newborn (orderly : Orderly hhdmOffset kernel held owneds history)
    {next : System Heap} (born : Newborn hhdmOffset kernel held history.system next owned)
    (empty : history.births = []) : ¬Running next.scheduler next.machine.memory := by
  have noProcess : history.system.scheduler.processCount = 0#32 := by
    have count := orderly.table.count
    rw [empty] at count
    exact BitVec.eq_of_toNat_eq count
  have isCurrent : currentProcess next.scheduler = owned.record.pointer hhdmOffset := by
    have first := orderly.start (orderly.births_eq_nil_iff.mp empty)
    simp [born.scheduler, currentProcess, Scheduler.push, first, noProcess]
  unfold Running
  rw [isCurrent, born.notRunning]
  decide

/-- A creation that adds a process. -/
theorem newborn (orderly : Orderly hhdmOffset kernel held owneds history) {next : System Heap}
    (born : Newborn hhdmOffset kernel held history.system next owned)
    (room : history.system.scheduler.processCount < maxProcesses) :
    Orderly hhdmOffset kernel held (owneds ++ [owned])
      { history with
        system := next
        births := history.births ++ [owned.birth hhdmOffset]
        stored := history.stored ++ [(history.births.length,
          readContext next.machine.memory (processCtx (owned.record.pointer hhdmOffset)))] } := by
  have empty : history.births.map Birth.record = [] → owneds = [] := fun noRecord =>
    orderly.births_eq_nil_iff.mp (List.map_eq_nil_iff.mp noRecord)
  refine
    { sound := born.careful.sound
      births := by simp [orderly.births]
      table := ?table
      start := by simp
      nodup := ?nodup
      withheld := ?withheld
      record := ?record
      pagemap := ?pagemap
      owner := ?owner
      stored := ?stored }
  case table =>
    rw [born.scheduler, List.map_append]
    exact orderly.table.push room born.nonnull (fun noRecord => orderly.start (empty noRecord))
      fun _ listed => orderly.record_separate born listed
  case nodup =>
    rw [List.flatMap_append, List.nodup_append]
    refine ⟨orderly.nodup, by simpa using born.nodup, ?_⟩
    intro frame early other new same
    obtain ⟨holder, isOwned, membership⟩ := List.mem_flatMap.mp early
    have isNew : other ∈ owned.frames := by simpa using new
    rw [← same] at isNew
    exact born.fresh frame isNew (orderly.withheld holder isOwned frame membership)
  case withheld =>
    intro other isOwned frame membership
    rcases List.mem_append.mp isOwned with early | new
    · obtain ⟨notFree, notHeap⟩ := orderly.withheld other early frame membership
      exact born.careful.notFreed frame notFree notHeap
    · rw [List.mem_singleton.mp new] at membership
      exact born.withheld frame membership
  case record =>
    intro other isOwned
    rcases List.mem_append.mp isOwned with early | new
    · exact (born.careful.kept _ (orderly.record other early)).1
    · rw [List.mem_singleton.mp new]
      exact born.record
  case pagemap =>
    intro birth isBirth
    rcases List.mem_append.mp isBirth with early | new
    · rw [orderly.process_kept born.careful early]
      exact orderly.pagemap birth early
    · rw [List.mem_singleton.mp new]
      exact born.pagemap
  case owner =>
    rw [orderly.owner]
    dsimp only
    by_cases noBirth : history.births = []
    · have idle := orderly.idle_newborn born noBirth
      rw [if_neg fun both => both.1 noBirth, if_neg fun both => idle both.2]
    · have running := orderly.running_kept born.careful noBirth
        (orderly.current_newborn born noBirth)
      have index : next.scheduler.currentIndex = history.system.scheduler.currentIndex := by
        rw [born.scheduler]
        rfl
      simp [running, index, noBirth]
  case stored =>
    intro index birth atIndex
    rw [lastAt_snoc]
    by_cases early : index < history.births.length
    · rw [List.getElem?_append_left early] at atIndex
      rw [if_neg (Nat.ne_of_gt early),
        orderly.process_kept born.careful (List.mem_of_getElem? atIndex)]
      exact orderly.stored index birth atIndex
    · have here : index = history.births.length := by
        have bound := (List.getElem?_eq_some_iff.mp atIndex).1
        rw [List.length_append, List.length_singleton] at bound
        exact Nat.le_antisymm (Nat.le_of_lt_succ bound) (Nat.le_of_not_lt early)
      rw [here, List.getElem?_concat_length] at atIndex
      rw [if_pos here.symm, ← Option.some.inj atIndex]
      rfl

/-- What a call does: it is a tick, or changes nothing but what is free to change, or
adds a process. -/
theorem step_cases (orderly : Orderly hhdmOffset kernel held owneds history) {call : SchedulerCall}
    (respects : files.Respects hhdmOffset kernel held)
    (allowed : history.Allowed files hhdmOffset kernel call) :
    (∃ interrupt, call = .tick interrupt ∧ interrupt.Safe hhdmOffset kernel history) ∨
    (∃ next,
      history.after files hhdmOffset (kernel.pointer hhdmOffset) call =
        { history with system := next } ∧
      Careful hhdmOffset kernel held history.system.state next.state ∧
      next.scheduler = history.system.scheduler) ∨
    ∃ next making owned heap fresh mappings loaded,
      history.system.scheduler.processCount < maxProcesses ∧
      Bearing hhdmOffset kernel held history.system next making owned heap fresh
        (call.visits files hhdmOffset (kernel.pointer hhdmOffset) history.system) mappings loaded ∧
      history.after files hhdmOffset (kernel.pointer hhdmOffset) call =
        { history with
          system := next
          births := history.births ++ [owned.birth hhdmOffset]
          stored := history.stored ++ [(history.births.length,
            readContext next.machine.memory (processCtx (owned.record.pointer hhdmOffset)))] } := by
  have unchanged : ∀ call, history.after files hhdmOffset (kernel.pointer hhdmOffset) call = history →
      ∃ next,
        history.after files hhdmOffset (kernel.pointer hhdmOffset) call =
          { history with system := next } ∧
        Careful hhdmOffset kernel held history.system.state next.state ∧
        next.scheduler = history.system.scheduler :=
    fun _ same => ⟨history.system, same, .refl orderly.sound, rfl⟩
  cases call with
  | tick interrupt => exact Or.inl ⟨interrupt, rfl, allowed⟩
  | terminate => exact Or.inr (Or.inl (unchanged _ (History.after_idleExit allowed)))
  | createProcess entry name =>
      by_cases full : history.system.scheduler.processCount ≥ maxProcesses
      · refine Or.inr (Or.inl (unchanged _ ?_))
        simp only [History.after, SchedulerCall.apply, schedulerCreateProcess, SchedulerCall.making,
          if_pos full]
      · have room := BitVec.not_le.mp full
        cases makes : (SchedulerCall.createProcess entry name).making files hhdmOffset
            (kernel.pointer hhdmOffset) history.system with
        | none => simp [SchedulerCall.making, full] at makes
        | some making =>
            obtain ⟨owned, heap, fresh, mappings, loaded, bearing⟩ :=
              SchedulerCall.bearing respects orderly.sound (allowed room) makes
            refine Or.inr (Or.inr ⟨_, making, owned, heap, fresh, mappings, loaded, room, bearing, ?_⟩)
            have isRecord : making.record = owned.record.pointer hhdmOffset :=
              congrArg Birth.record bearing.birth
            simp only [History.after, makes, bearing.birth, isRecord]
  | createElfProcess path name =>
      by_cases full : history.system.scheduler.processCount ≥ maxProcesses
      · refine Or.inr (Or.inl (unchanged _ ?_))
        simp only [History.after, SchedulerCall.apply, schedulerCreateElfProcess,
          SchedulerCall.making, if_pos full]
      · have room := BitVec.not_le.mp full
        cases makes : (SchedulerCall.createElfProcess path name).making files hhdmOffset
            (kernel.pointer hhdmOffset) history.system with
        | none =>
            obtain ⟨careful, scheduler, -⟩ :=
              SchedulerCall.unborn respects orderly.sound (allowed room) makes
            refine Or.inr (Or.inl ⟨_, ?_, careful, scheduler⟩)
            simp only [History.after, makes]
        | some making =>
            obtain ⟨owned, heap, fresh, mappings, loaded, bearing⟩ :=
              SchedulerCall.bearing respects orderly.sound (allowed room) makes
            refine Or.inr (Or.inr ⟨_, making, owned, heap, fresh, mappings, loaded, room, bearing, ?_⟩)
            have isRecord : making.record = owned.record.pointer hhdmOffset :=
              congrArg Birth.record bearing.birth
            simp only [History.after, makes, bearing.birth, isRecord]

/-- What one call preserves. -/
theorem step (orderly : Orderly hhdmOffset kernel held owneds history) {call : SchedulerCall}
    (respects : files.Respects hhdmOffset kernel held)
    (allowed : history.Allowed files hhdmOffset kernel call) :
    ∃ more, Orderly hhdmOffset kernel held (owneds ++ more)
      (history.after files hhdmOffset (kernel.pointer hhdmOffset) call) := by
  rcases orderly.step_cases respects allowed with ⟨interrupt, rfl, safe⟩ |
    ⟨next, after, careful, scheduler⟩ |
    ⟨next, making, owned, heap, fresh, mappings, loaded, room, bearing, after⟩
  · exact ⟨[], by simpa using orderly.tick safe⟩
  · rw [after]
    exact ⟨[], by simpa using orderly.unborn careful scheduler⟩
  · rw [after]
    exact ⟨[owned], orderly.newborn bearing.newborn room⟩

theorem begin (sound : Sound hhdmOffset kernel held system.state) :
    Orderly hhdmOffset kernel held [] (History.begin system) where
  sound := sound
  births := rfl
  table := .empty rfl
  start := fun _ => rfl
  nodup := List.nodup_nil
  withheld := by simp
  record := by simp
  pagemap := by simp [History.begin]
  owner := by simp [History.begin]
  stored := by simp [History.begin]

/-- What a run preserves. -/
theorem of_run {calls : List SchedulerCall} (respects : files.Respects hhdmOffset kernel held)
    (sound : Sound hhdmOffset kernel held system.state)
    (run : Run (guarded (History.after files hhdmOffset (kernel.pointer hhdmOffset))
      (History.Allowed files hhdmOffset kernel)) (History.begin system) calls history) :
    ∃ owneds, Orderly hhdmOffset kernel held owneds history := by
  refine run.invariant (fun state => ∃ owneds, Orderly hhdmOffset kernel held owneds state)
    ⟨[], .begin sound⟩ ?_
  rintro before call after ⟨owneds, orderly⟩ ⟨allowed, rfl⟩
  obtain ⟨more, later⟩ := orderly.step respects allowed
  exact ⟨owneds ++ more, later⟩

end Orderly

end Nekonix
