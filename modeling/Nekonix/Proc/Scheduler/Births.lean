import Nekonix.Proc.Scheduler.History

/-!
# Creations in a history

A creation call either leaves the process table alone or appends one process,
whose frames no one else had.
-/

namespace Nekonix

open FlatMemory RadixTable Transition

variable {Heap : Type} {hhdmOffset kernelPagemap : U64} {kernel : Frame}
  {held : Heap → Set Frame} {files : Files Heap} {system next : System Heap}
  {owned : Owned} {making : Making}

/-- The state of the heap and the machine of a system. -/
abbrev System.state (system : System Heap) : Heap × Machine := (system.heap, system.machine)

/-- The creation finds its frames in the direct map: one for the pagemap, those of
the tables and pages of the image, and those of the record and the stack. -/
def SchedulerCall.Supplied (files : Files Heap) (hhdmOffset kernelPagemap : U64)
    (system : System Heap) : SchedulerCall → Prop
  | .createProcess _ _ =>
      DirectlyMapped hhdmOffset system.machine ∧ 3 ≤ system.machine.free.length
  | .createElfProcess path _ =>
      match fetchFile files (system.heap, system.machine) path with
      | (none, _) => True
      | (some (_, data), _, machine) =>
          DirectlyMapped hhdmOffset machine ∧ machine.free ≠ [] ∧
            let (pagemap, fresh) := vmmNewPagemap hhdmOffset kernelPagemap machine
            let (entry, loaded) := elfLoad hhdmOffset fresh data pagemap
            (∀ visit ∈ elfVisits hhdmOffset fresh data pagemap, visit.Enough hhdmOffset pagemap) ∧
              (entry ≠ 0#64 → 2 ≤ loaded.free.length)
  | .tick _ => True
  | .terminate => True

def Owned.birth (hhdmOffset : U64) (owned : Owned) : Birth where
  record := owned.record.pointer hhdmOffset
  pagemap := owned.pagemap.pointer hhdmOffset
  rsp := owned.stack.pointer hhdmOffset + 4095#64
  taken := owned.frames.reverse.map Frame.address

/-- A call that has added the process that owns these frames. -/
structure Newborn (hhdmOffset : U64) (kernel : Frame) (held : Heap → Set Frame)
    (system next : System Heap) (owned : Owned) : Prop where
  careful : Careful hhdmOffset kernel held system.state next.state
  scheduler : next.scheduler = system.scheduler.push (owned.record.pointer hhdmOffset)
  cr3 : next.cr3 = system.cr3
  nonnull : owned.record.pointer hhdmOffset ≠ 0#64
  nodup : owned.frames.Nodup
  fresh : ∀ frame ∈ owned.frames, ¬Withheld held system.state frame
  withheld : ∀ frame ∈ owned.frames, Withheld held next.state frame
  record : Private hhdmOffset kernel held next.state owned.record
  notRunning : (readProcess next.machine.memory (owned.record.pointer hhdmOffset)).state =
    ProcessState.new.code
  pagemap : (readProcess next.machine.memory (owned.record.pointer hhdmOffset)).pagemap =
    owned.pagemap.pointer hhdmOffset

/-- The pages that a call loads. -/
def SchedulerCall.visits (files : Files Heap) (hhdmOffset kernelPagemap : U64)
    (system : System Heap) : SchedulerCall → List PageVisit
  | .createElfProcess path _ =>
      match fetchFile files (system.heap, system.machine) path with
      | (none, _) => []
      | (some (_, data), _, machine) =>
          let (pagemap, fresh) := vmmNewPagemap hhdmOffset kernelPagemap machine
          elfVisits hhdmOffset fresh data pagemap
  | _ => []

/-- How a call adds a process: what comes before the building and what comes after it
is careful. -/
structure Bearing (hhdmOffset : U64) (kernel : Frame) (held : Heap → Set Frame)
    (system next : System Heap) (making : Making) (owned : Owned) (heap : Heap)
    (fresh : Machine) (visits : List PageVisit) (mappings : List Mapping) (loaded : Machine) :
    Prop where
  earlier : Careful hhdmOffset kernel held system.state (heap, making.before)
  building : Building hhdmOffset kernel owned making.before fresh visits mappings loaded making.after
  later : Careful hhdmOffset kernel held (heap, making.after) next.state
  birth : making.birth = owned.birth hhdmOffset
  nonnull : owned.record.pointer hhdmOffset ≠ 0#64
  state : (readProcess making.after.memory (owned.record.pointer hhdmOffset)).state =
    ProcessState.new.code
  pagemap : (readProcess making.after.memory (owned.record.pointer hhdmOffset)).pagemap =
    owned.pagemap.pointer hhdmOffset
  scheduler : next.scheduler = system.scheduler.push (owned.record.pointer hhdmOffset)
  cr3 : next.cr3 = system.cr3

/-- A fresh pagemap where a directly mapped frame is free. -/
theorem DirectlyMapped.newPagemap {machine : Machine} (mapped : DirectlyMapped hhdmOffset machine)
    (usable : machine.stack.Usable) (available : machine.free ≠ [])
    (kernelTaken : kernel.address ∉ machine.free) :
    ∃ (pagemap : Frame) (fresh : Machine),
      vmmNewPagemap hhdmOffset (kernel.pointer hhdmOffset) machine =
        (pagemap.pointer hhdmOffset, fresh) ∧
      NewPagemap hhdmOffset kernel machine pagemap fresh := by
  have requested := pmmRequestPage_spec hhdmOffset available
  obtain ⟨frame, nonzero, isFrame, -⟩ := requested.frame usable
  have free : frame.address ∈ machine.free := by
    rw [requested.free, isFrame]
    simp
  have pageNonnull := pointer_ne_zero nonzero (mapped frame free)
  rw [Frame.pointer, ← isFrame] at pageNonnull
  have nonnull : (vmmNewPagemap hhdmOffset (kernel.pointer hhdmOffset) machine).1 ≠ 0#64 := by
    simp [vmmNewPagemap, pageNonnull]
  obtain ⟨pagemap, isPagemap, made⟩ := vmmNewPagemap_spec hhdmOffset usable available kernelTaken
    nonnull
  exact ⟨pagemap, _, Prod.ext isPagemap rfl, made⟩

/-- The end of a creation: the record and the stack, once the image is loaded. -/
theorem processCreate_building {fresh loaded before : Machine} {pagemap : Frame}
    {visits : List PageVisit} {mappings : List Mapping} (entry name : U64)
    (made : NewPagemap hhdmOffset kernel before pagemap fresh)
    (pages : PageRun hhdmOffset pagemap Set.univ fresh visits mappings loaded)
    (enough : 2 ≤ loaded.free.length) (mapped : DirectlyMapped hhdmOffset before) :
    ∃ record stack after,
      processCreate hhdmOffset { system with machine := loaded } entry
          (pagemap.pointer hhdmOffset) name =
        (record.pointer hhdmOffset,
          { system with machine := after, pidCounter := system.pidCounter + 1#64 }) ∧
      Building hhdmOffset kernel ⟨pagemap, takenBy mappings, record, stack⟩ before fresh visits
        mappings loaded after ∧
      record.pointer hhdmOffset ≠ 0#64 ∧
      Created hhdmOffset record stack { system with machine := loaded }
        { system with machine := after, pidCounter := system.pidCounter + 1#64 }
        (pagemap.pointer hhdmOffset) name := by
  have still : DirectlyMapped hhdmOffset loaded := by
    intro frame free
    apply mapped
    rw [made.free, pages.run.free]
    exact List.mem_append_left _ (List.mem_append_left _ free)
  obtain ⟨record, stack, next, created, takes, nonnull, fields, rest⟩ :=
    processCreate_spec { system with machine := loaded } entry (pagemap.pointer hhdmOffset) name
      (pages.run.usable made.usable) enough still
  rw [rest] at created fields
  exact ⟨record, stack, next.machine, created, ⟨made, pages, rfl, takes⟩, nonnull, fields⟩

theorem Making.birth_eq {before fresh loaded after : Machine} {visits : List PageVisit}
    {mappings : List Mapping}
    (building : Building hhdmOffset kernel owned before fresh visits mappings loaded after)
    (rsp : Memory.load64 after.memory (intFrameRsp (processCtx (owned.record.pointer hhdmOffset))) =
      owned.stack.pointer hhdmOffset + 4095#64) :
    (Making.mk before (owned.pagemap.pointer hhdmOffset) (owned.record.pointer hhdmOffset)
      after).birth = owned.birth hhdmOffset := by
  unfold Making.birth Owned.birth
  rw [building.free, List.drop_left, rsp]

theorem schedulerCreateProcess_bearing {entry name : U64}
    (sound : Sound hhdmOffset kernel held system.state)
    (room : system.scheduler.processCount < maxProcesses)
    (mapped : DirectlyMapped hhdmOffset system.machine) (enough : 3 ≤ system.machine.free.length) :
    ∃ making owned fresh mappings loaded,
      (SchedulerCall.createProcess entry name).making files hhdmOffset (kernel.pointer hhdmOffset)
        system = some making ∧
      Bearing hhdmOffset kernel held system
        ((SchedulerCall.createProcess entry name).apply files hhdmOffset
          (kernel.pointer hhdmOffset) system)
        making owned system.heap fresh [] mappings loaded := by
  have notFull : ¬system.scheduler.processCount ≥ maxProcesses := BitVec.not_le.mpr room
  obtain ⟨pagemap, fresh, isPagemap, made⟩ := mapped.newPagemap sound.usable
    (List.ne_nil_of_length_pos (by omega)) (sound.space.apart [] nil_mem_within kernel rfl)
  have count : system.machine.free.length = fresh.free.length + 1 := by
    rw [made.free]
    simp
  obtain ⟨record, stack, after, created, building, nonnull, fields⟩ :=
    @processCreate_building _ _ _ system _ _ _ _ _ _ entry name made PageRun.nil (by omega) mapped
  have applied : (SchedulerCall.createProcess entry name).apply files hhdmOffset
      (kernel.pointer hhdmOffset) system =
        { system with
          machine := after
          pidCounter := system.pidCounter + 1#64
          scheduler := system.scheduler.push (record.pointer hhdmOffset) } := by
    simp only [SchedulerCall.apply, schedulerCreateProcess, if_neg notFull, isPagemap, created]
  refine ⟨⟨system.machine, pagemap.pointer hhdmOffset, record.pointer hhdmOffset, after⟩,
    ⟨pagemap, takenBy [], record, stack⟩, fresh, [], fresh, ?_, ?_⟩
  · simp only [SchedulerCall.making, if_neg notFull, isPagemap, created]
  rw [applied]
  have birth := Making.birth_eq building fields.rsp
  exact
    { earlier := .refl sound
      building := building
      later := .refl (building.careful sound).1.sound
      birth := birth
      nonnull := nonnull
      state := fields.state
      pagemap := fields.pagemap
      scheduler := rfl
      cr3 := rfl }

theorem schedulerCreateElfProcess_bearing {path name : U64} {making : Making}
    (respects : files.Respects hhdmOffset kernel held)
    (sound : Sound hhdmOffset kernel held system.state)
    (supplied : (SchedulerCall.createElfProcess path name).Supplied files hhdmOffset
      (kernel.pointer hhdmOffset) system)
    (makes : (SchedulerCall.createElfProcess path name).making files hhdmOffset
      (kernel.pointer hhdmOffset) system = some making) :
    ∃ owned heap fresh mappings loaded,
      Bearing hhdmOffset kernel held system
        ((SchedulerCall.createElfProcess path name).apply files hhdmOffset
          (kernel.pointer hhdmOffset) system)
        making owned heap fresh
        ((SchedulerCall.createElfProcess path name).visits files hhdmOffset
          (kernel.pointer hhdmOffset) system) mappings loaded := by
  have fetching := respects.fetchFile path sound
  simp only [SchedulerCall.making] at makes
  simp only [SchedulerCall.Supplied] at supplied
  split_ifs at makes with full
  simp only [SchedulerCall.apply, SchedulerCall.visits, schedulerCreateElfProcess, if_neg full]
  generalize fetchFile files (system.heap, system.machine) path = fetched at *
  obtain ⟨found, heap, machine⟩ := fetched
  cases found with
  | none => cases makes
  | some opened =>
      obtain ⟨init, data⟩ := opened
      obtain ⟨mapped, available, supplied⟩ := supplied
      obtain ⟨pagemap, fresh, isPagemap, made⟩ := mapped.newPagemap fetching.sound.usable available
        (fetching.sound.space.apart [] nil_mem_within kernel rfl)
      simp only [isPagemap] at makes supplied ⊢
      obtain ⟨enough, toEnd⟩ := supplied
      obtain ⟨mappings, pages⟩ := elfLoad_run data made.usable
        (made.space fetching.sound.usable fetching.sound.space)
        fun visit membership => ⟨enough visit membership, Set.mem_univ _⟩
      generalize elfLoad hhdmOffset fresh data (pagemap.pointer hhdmOffset) = result at *
      obtain ⟨entry, loaded⟩ := result
      dsimp only at *
      split_ifs at makes with failed
      obtain ⟨record, stack, after, created, building, nonnull, fields⟩ :=
        @processCreate_building _ _ _ { system with heap } _ _ _ _ _ _ entry name made pages
          (toEnd failed) mapped
      simp only [created] at makes
      simp only [if_neg failed, created]
      obtain rfl := Option.some.inj makes
      have birth := Making.birth_eq building fields.rsp
      have closing := respects.close (heap, after) init (building.careful fetching.sound).1.sound
      refine ⟨⟨pagemap, takenBy mappings, record, stack⟩, heap, fresh, mappings, loaded, ?_⟩
      exact
        { earlier := fetching
          building := building
          later := closing
          birth := birth
          nonnull := nonnull
          state := fields.state
          pagemap := fields.pagemap
          scheduler := rfl
          cr3 := rfl }

/-- A creation that finds its frames adds a process. -/
theorem SchedulerCall.bearing {call : SchedulerCall} {making : Making}
    (respects : files.Respects hhdmOffset kernel held)
    (sound : Sound hhdmOffset kernel held system.state)
    (supplied : call.Supplied files hhdmOffset (kernel.pointer hhdmOffset) system)
    (makes : call.making files hhdmOffset (kernel.pointer hhdmOffset) system = some making) :
    ∃ owned heap fresh mappings loaded,
      Bearing hhdmOffset kernel held system
        (call.apply files hhdmOffset (kernel.pointer hhdmOffset) system) making owned heap fresh
        (call.visits files hhdmOffset (kernel.pointer hhdmOffset) system) mappings loaded := by
  cases call with
  | createProcess entry name =>
      have room : system.scheduler.processCount < maxProcesses := by
        by_contra full
        simp [SchedulerCall.making, BitVec.not_lt.mp full] at makes
      obtain ⟨other, owned, fresh, mappings, loaded, isOther, bearing⟩ :=
        @schedulerCreateProcess_bearing _ _ _ _ files _ entry name sound room supplied.1 supplied.2
      obtain rfl := Option.some.inj (isOther.symm.trans makes)
      exact ⟨owned, system.heap, fresh, mappings, loaded, bearing⟩
  | createElfProcess path name => exact schedulerCreateElfProcess_bearing respects sound supplied makes
  | tick interrupt => cases makes
  | terminate => cases makes

/-- A creation that adds no process is careful. -/
theorem SchedulerCall.unborn {path name : U64}
    (respects : files.Respects hhdmOffset kernel held)
    (sound : Sound hhdmOffset kernel held system.state)
    (supplied : (SchedulerCall.createElfProcess path name).Supplied files hhdmOffset
      (kernel.pointer hhdmOffset) system)
    (makesNone : (SchedulerCall.createElfProcess path name).making files hhdmOffset
      (kernel.pointer hhdmOffset) system = none) :
    let next := (SchedulerCall.createElfProcess path name).apply files hhdmOffset
      (kernel.pointer hhdmOffset) system
    Careful hhdmOffset kernel held system.state next.state ∧
      next.scheduler = system.scheduler ∧ next.cr3 = system.cr3 := by
  have fetching := respects.fetchFile path sound
  simp only [SchedulerCall.making] at makesNone
  simp only [SchedulerCall.Supplied] at supplied
  simp only [SchedulerCall.apply, schedulerCreateElfProcess]
  split_ifs at makesNone ⊢ with full
  · exact ⟨.refl sound, rfl, rfl⟩
  generalize fetchFile files (system.heap, system.machine) path = fetched at *
  obtain ⟨found, heap, machine⟩ := fetched
  cases found with
  | none => exact ⟨fetching, rfl, rfl⟩
  | some opened =>
      obtain ⟨init, data⟩ := opened
      obtain ⟨mapped, available, supplied⟩ := supplied
      obtain ⟨pagemap, fresh, isPagemap, made⟩ := mapped.newPagemap fetching.sound.usable available
        (fetching.sound.space.apart [] nil_mem_within kernel rfl)
      simp only [isPagemap] at makesNone supplied ⊢
      obtain ⟨mappings, pages⟩ := elfLoad_run data made.usable
        (made.space fetching.sound.usable fetching.sound.space)
        fun visit membership => ⟨supplied.1 visit membership, Set.mem_univ _⟩
      generalize elfLoad hhdmOffset fresh data (pagemap.pointer hhdmOffset) = result at *
      obtain ⟨entry, loaded⟩ := result
      dsimp only at *
      split_ifs at makesNone with failed
      rw [if_pos failed]
      exact ⟨fetching.trans (made.careful fetching.sound pages.run), rfl, rfl⟩

theorem Bearing.newborn {heap : Heap} {fresh loaded : Machine} {visits : List PageVisit}
    {mappings : List Mapping}
    (bearing : Bearing hhdmOffset kernel held system next making owned heap fresh visits mappings
      loaded) : Newborn hhdmOffset kernel held system next owned := by
  have sound := bearing.earlier.sound
  obtain ⟨building, recordPrivate, -⟩ := bearing.building.careful sound
  obtain ⟨isPrivate, same⟩ := bearing.later.kept _ recordPrivate
  have process : readProcess next.machine.memory (owned.record.pointer hhdmOffset) =
      readProcess making.after.memory (owned.record.pointer hhdmOffset) :=
    readProcess_congr fun address inRecord =>
      same address (inRecord.mono (by decide))
  refine
    { careful := (bearing.earlier.trans building).trans bearing.later
      scheduler := bearing.scheduler
      cr3 := bearing.cr3
      nonnull := bearing.nonnull
      nodup := (bearing.building.nodup sound.usable).1
      fresh := ?fresh
      withheld := ?withheld
      record := isPrivate
      notRunning := by rw [process, bearing.state]
      pagemap := by rw [process, bearing.pagemap] }
  case fresh =>
    intro frame membership withheld
    exact (bearing.earlier.notFreed frame withheld.1 withheld.2).1
      (bearing.building.wasFree membership)
  case withheld =>
    intro frame membership
    obtain ⟨notFree, notHeap⟩ := bearing.building.withheld sound membership
    exact bearing.later.notFreed frame notFree notHeap

@[simp]
theorem Scheduler.push_last (scheduler : Scheduler) (proc : U64) :
    (scheduler.push proc).processes scheduler.processCount = proc :=
  @Function.update_self U32 (fun _ => U64) _ _ _ _

theorem Scheduler.push_other {scheduler : Scheduler} (proc : U64) {slot : U32}
    (other : slot ≠ scheduler.processCount) :
    (scheduler.push proc).processes slot = scheduler.processes slot :=
  Function.update_of_ne other _ _

/-- A record at the end of the table. -/
theorem ProcessTable.push {scheduler : Scheduler} {procs : List U64} {proc : U64}
    (table : ProcessTable scheduler procs) (room : scheduler.processCount < maxProcesses)
    (nonnull : proc ≠ 0#64)
    (start : procs = [] → scheduler.currentIndex = 0#32)
    (apart : ∀ other ∈ procs, Separate other processSize proc processSize) :
    ProcessTable (scheduler.push proc) (procs ++ [proc]) := by
  have count := table.count
  have small : procs.length < 256 := by
    rw [← count]
    exact room
  have fresh : proc ∉ procs := by
    intro membership
    exact apart proc membership proc (processPid_inRecord proc) (processPid_inRecord proc)
  refine
    { count := ?count
      bound := ?bound
      listed := ?listed
      current := ?current
      nonnull := ?nonnull
      nodup := ?nodup
      separate := ?separate }
  case count =>
    rw [List.length_append, List.length_singleton, ← count]
    unfold Scheduler.push
    bv_omega
  case bound =>
    rw [List.length_append, List.length_singleton]
    exact small
  case listed =>
    intro index listed atIndex
    rcases Nat.lt_trichotomy index procs.length with early | here | late
    · rw [List.getElem?_append_left early] at atIndex
      rw [← table.listed index listed atIndex]
      apply Scheduler.push_other
      intro same
      rw [← same] at count
      rw [BitVec.toNat_ofNat] at count
      omega
    · subst here
      rw [List.getElem?_concat_length] at atIndex
      obtain rfl := Option.some.inj atIndex
      have slot : BitVec.ofNat 32 procs.length = scheduler.processCount := by
        rw [← count, BitVec.ofNat_toNat, BitVec.setWidth_eq]
      rw [slot, Scheduler.push_last]
    · rw [List.getElem?_eq_none] at atIndex
      · cases atIndex
      · rw [List.length_append, List.length_singleton]
        exact late
  case current =>
    intro _
    rw [List.length_append, List.length_singleton]
    by_cases empty : procs = []
    · change scheduler.currentIndex.toNat < _
      rw [start empty]
      exact Nat.succ_pos _
    · exact Nat.lt_succ_of_lt (table.current empty)
  case nonnull =>
    intro listed membership
    rcases List.mem_append.mp membership with early | new
    · exact table.nonnull listed early
    · rw [List.mem_singleton.mp new]
      exact nonnull
  case nodup =>
    rw [List.nodup_append]
    refine ⟨table.nodup, List.nodup_singleton _, ?_⟩
    intro listed early other new same
    rw [List.mem_singleton.mp new] at same
    exact fresh (same ▸ early)
  case separate =>
    intro first firstIn second secondIn different
    rcases List.mem_append.mp firstIn with firstEarly | firstNew
    · rcases List.mem_append.mp secondIn with secondEarly | secondNew
      · exact table.separate first firstEarly second secondEarly different
      · rw [List.mem_singleton.mp secondNew]
        exact apart first firstEarly
    · rw [List.mem_singleton.mp firstNew] at different ⊢
      rcases List.mem_append.mp secondIn with secondEarly | secondNew
      · exact (apart second secondEarly).symm
      · exact absurd (List.mem_singleton.mp secondNew).symm different

end Nekonix
