import Nekonix.Mm.Vmm.Cleared
import Nekonix.Proc.Scheduler.Dispatch
import Nekonix.Sys.Syscall

/-!
# Exit

`scheduler_terminate_current_process` takes the process out of the table and
leaves the interrupt frame as it is.  So the exit returns into the process that
is gone, and the next tick saves its registers in the process that slid into its
place, if that one has run before.
-/

namespace Nekonix

open FlatMemory

variable {Heap : Type} {hhdmOffset : U64} {system : System Heap} {scheduler : Scheduler}
  {procs : List U64} {proc frame : U64} {memory : Memory}

/-- Each entry from `i` up to `last` gets the one behind it. -/
theorem shiftProcesses_spec (processes : U32 → U64) (last i : U32) {fuel : Nat}
    (enough : last.toNat ≤ i.toNat + fuel) (j : U32) :
    shiftProcesses last fuel processes i j =
      if i.toNat ≤ j.toNat ∧ j.toNat < last.toNat then processes (j + 1#32) else processes j := by
  induction fuel generalizing processes i with
  | zero =>
      have outside : ¬(i.toNat ≤ j.toNat ∧ j.toNat < last.toNat) := by bv_omega
      rw [if_neg outside]
      rfl
  | succ fuel inductionHypothesis =>
      unfold shiftProcesses
      by_cases inside : i < last
      · rw [if_pos inside, inductionHypothesis _ _ (by bv_omega)]
        by_cases here : j = i
        · have first : ¬((i + 1#32).toNat ≤ j.toNat ∧ j.toNat < last.toNat) := by bv_omega
          have moved : i.toNat ≤ j.toNat ∧ j.toNat < last.toNat := by bv_omega
          rw [if_neg first, if_pos moved, here, Function.update_self]
        · have untouched : j.toNat < last.toNat → (i + 1#32).toNat ≤ j.toNat → j + 1#32 ≠ i := by
            intro below after
            bv_omega
          have same : ((i + 1#32).toNat ≤ j.toNat ∧ j.toNat < last.toNat) ↔
              (i.toNat ≤ j.toNat ∧ j.toNat < last.toNat) := by
            bv_omega
          rw [Function.update_of_ne here]
          by_cases moved : i.toNat ≤ j.toNat ∧ j.toNat < last.toNat
          · rw [if_pos (same.mpr moved), if_pos moved,
              Function.update_of_ne (untouched moved.2 (same.mpr moved).1)]
          · rw [if_neg (fun both => moved (same.mp both)), if_neg moved]
      · have outside : ¬(i.toNat ≤ j.toNat ∧ j.toNat < last.toNat) := by bv_omega
        rw [if_neg inside, if_neg outside]

/-- The table without the process at `current_index`. -/
def survivors (scheduler : Scheduler) (procs : List U64) : List U64 :=
  procs.eraseIdx scheduler.currentIndex.toNat

/-- The effects of ending the running process. -/
structure Terminated (system next : System Heap) : Prop where
  processCount : next.scheduler.processCount = system.scheduler.processCount - 1#32
  processes : ∀ j, next.scheduler.processes j =
    if system.scheduler.currentIndex.toNat ≤ j.toNat ∧
        j.toNat < (system.scheduler.processCount - 1#32).toNat then
      system.scheduler.processes (j + 1#32)
    else system.scheduler.processes j
  currentIndex : next.scheduler.processCount ≠ 0#32 →
    next.scheduler.currentIndex = system.scheduler.currentIndex % next.scheduler.processCount
  machine : next.machine = processDestroy
    { system.machine with
      memory := Memory.store32 system.machine.memory
        (processState (currentProcess system.scheduler)) ProcessState.terminated.code }
    (currentProcess system.scheduler)
  heap : next.heap = system.heap
  cr3 : next.cr3 = system.cr3
  pidCounter : next.pidCounter = system.pidCounter

theorem processDestroy_memory (machine : Machine) (proc : U64) :
    (processDestroy machine proc).memory = machine.memory := by
  simp only [processDestroy, vmmDestroyPagemap, pmmFreePage_memory]

theorem schedulerTerminateCurrentProcess_spec
    (running : Running system.scheduler system.machine.memory) :
    Terminated system (schedulerTerminateCurrentProcess system).2 := by
  have fuel : (system.scheduler.processCount - 1#32).toNat ≤
      system.scheduler.currentIndex.toNat + 2 ^ 32 := by
    bv_omega
  have shifted := shiftProcesses_spec system.scheduler.processes
    (system.scheduler.processCount - 1#32) system.scheduler.currentIndex fuel
  have isRunning : ¬Memory.load32 system.machine.memory
      (processState (currentProcess system.scheduler)) ≠ ProcessState.running.code :=
    not_not.mpr running
  unfold schedulerTerminateCurrentProcess
  dsimp only
  rw [if_neg isRunning]
  split
  next last =>
    exact ⟨rfl, shifted, fun some => absurd last some, rfl, rfl, rfl, rfl⟩
  next => exact ⟨rfl, shifted, fun _ => rfl, rfl, rfl, rfl, rfl⟩

namespace Terminated

variable {next : System Heap}

theorem count (terminated : Terminated system next)
    (table : ProcessTable system.scheduler procs) (several : 2 ≤ procs.length) :
    next.scheduler.processCount.toNat = procs.length - 1 := by
  have count := table.count
  rw [terminated.processCount]
  bv_omega

/-- The survivors are listed. -/
theorem table (terminated : Terminated system next)
    (table : ProcessTable system.scheduler procs) (several : 2 ≤ procs.length) :
    ProcessTable next.scheduler (survivors system.scheduler procs) := by
  have nonempty : procs ≠ [] := List.ne_nil_of_length_pos (by omega)
  have below := table.current nonempty
  have bound := table.bound
  have count := terminated.count table several
  have length : (survivors system.scheduler procs).length = procs.length - 1 :=
    List.length_eraseIdx_of_lt below
  have inTable : ∀ proc ∈ survivors system.scheduler procs, proc ∈ procs :=
    fun proc => List.mem_of_mem_eraseIdx
  refine
    { count := count.trans length.symm
      bound := by omega
      listed := ?listed
      current := ?current
      nonnull := fun proc membership => table.nonnull proc (inTable proc membership)
      nodup := table.nodup.sublist (List.eraseIdx_sublist _ _)
      separate := fun proc membership other otherIn =>
        table.separate proc (inTable proc membership) other (inTable other otherIn) }
  case listed =>
    intro index proc found
    have inside : index < procs.length - 1 := by
      rw [← length]
      exact (List.getElem?_eq_some_iff.mp found).1
    have number : (BitVec.ofNat 32 index).toNat = index := by
      rw [BitVec.toNat_ofNat]
      omega
    have lastIndex : (system.scheduler.processCount - 1#32).toNat = procs.length - 1 := by
      rw [← terminated.processCount, count]
    rw [survivors, List.getElem?_eraseIdx] at found
    rw [terminated.processes, number, lastIndex]
    split_ifs at found with before
    · rw [if_neg (by omega)]
      exact table.listed index proc found
    · rw [if_pos (by omega), ← BitVec.ofNat_add]
      exact table.listed (index + 1) proc found
  case current =>
    intro _
    have some : next.scheduler.processCount ≠ 0#32 := by
      intro zero
      rw [zero] at count
      change 0 = _ at count
      omega
    rw [terminated.currentIndex some, BitVec.toNat_umod, count, length]
    exact Nat.mod_lt _ (by omega)

/-- After the last process the table is empty. -/
theorem table_last (terminated : Terminated system next)
    (table : ProcessTable system.scheduler procs) (single : procs.length = 1) :
    ProcessTable next.scheduler (survivors system.scheduler procs) := by
  have below := table.current (List.ne_nil_of_length_pos (by omega))
  have none : survivors system.scheduler procs = [] := by
    apply List.eq_nil_of_length_eq_zero
    rw [survivors, List.length_eraseIdx_of_lt below, single]
  have count := table.count
  rw [none]
  apply ProcessTable.empty
  rw [terminated.processCount]
  bv_omega

theorem table_left (terminated : Terminated system next)
    (table : ProcessTable system.scheduler procs) (nonempty : procs ≠ []) :
    ProcessTable next.scheduler (survivors system.scheduler procs) := by
  have positive := List.length_pos_iff.mpr nonempty
  by_cases several : 2 ≤ procs.length
  · exact terminated.table table several
  · exact terminated.table_last table (by omega)

/-- The process that was next slides into the place of the one that is gone. -/
theorem current (terminated : Terminated system next)
    (table : ProcessTable system.scheduler procs) (several : 2 ≤ procs.length) :
    currentProcess next.scheduler = nextProcess system.scheduler := by
  have nonempty : procs ≠ [] := List.ne_nil_of_length_pos (by omega)
  have below := table.current nonempty
  have bound := table.bound
  have count := terminated.count table several
  have some : next.scheduler.processCount ≠ 0#32 := by
    intro zero
    rw [zero] at count
    change 0 = _ at count
    omega
  have lastIndex : (system.scheduler.processCount - 1#32).toNat = procs.length - 1 := by
    rw [← terminated.processCount, count]
  have index := table.nextIndex_toNat nonempty
  have newIndex : next.scheduler.currentIndex.toNat =
      system.scheduler.currentIndex.toNat % (procs.length - 1) := by
    rw [terminated.currentIndex some, BitVec.toNat_umod, count]
  unfold currentProcess nextProcess
  rw [terminated.processes, newIndex, lastIndex]
  by_cases isLast : system.scheduler.currentIndex.toNat = procs.length - 1
  · -- The last process ends: the first one takes its place.
    rw [isLast, Nat.mod_self] at newIndex
    rw [isLast, Nat.sub_add_cancel (by omega), Nat.mod_self] at index
    rw [isLast, Nat.mod_self, if_neg (by omega)]
    congr 1
    exact BitVec.eq_of_toNat_eq (newIndex.trans index.symm)
  · have inside : system.scheduler.currentIndex.toNat < procs.length - 1 := by omega
    rw [Nat.mod_eq_of_lt inside] at newIndex ⊢
    rw [Nat.mod_eq_of_lt (by omega)] at index
    rw [if_pos ⟨le_rfl, inside⟩]
    congr 1
    bv_omega

theorem outside (terminated : Terminated system next) {address : U64}
    (outside : ¬InRange (currentProcess system.scheduler) processSize address) :
    next.machine.memory address = system.machine.memory address := by
  rw [terminated.machine, processDestroy_memory]
  exact store_outside fun inState => outside (processState_inRecord inState)

theorem survivor (terminated : Terminated system next)
    (table : ProcessTable system.scheduler procs) (nonempty : procs ≠ [])
    (membership : proc ∈ survivors system.scheduler procs) :
    readProcess next.machine.memory proc = readProcess system.machine.memory proc := by
  have inTable : proc ∈ procs := List.mem_of_mem_eraseIdx membership
  have different : proc ≠ currentProcess system.scheduler := by
    intro same
    obtain ⟨index, elsewhere, found⟩ := List.mem_eraseIdx_iff_getElem?.mp membership
    have here := table.at_index (table.current nonempty)
    have inside := (List.getElem?_eq_some_iff.mp found).1
    apply elsewhere
    apply (List.getElem?_inj inside table.nodup).mp
    rw [found, here, same]
    rfl
  apply readProcess_congr
  intro address inRecord
  apply terminated.outside
  exact table.separate proc inTable _ (table.current_mem nonempty) different address inRecord

end Terminated

/-- What exit returns into is the saved context of a survivor, and not the one that
the process exited with. -/
def ReturnsToSurvivor (procs : List U64) (frame : U64) (system next : System Heap) : Prop :=
  (∃ proc ∈ survivors system.scheduler procs,
    readContext next.machine.memory frame = (readProcess next.machine.memory proc).ctx) ∧
  readContext next.machine.memory frame ≠ readContext system.machine.memory frame

/-- Whatever ticks follow, each stores a survivor's context only while the survivor
has the processor. -/
def KeepsSurvivors (hhdmOffset : U64) (procs : List U64) (system next : System Heap) : Prop :=
  ∀ ticks : List Tick, (∀ tick ∈ ticks, tick.Apart procs) →
    Undisturbed hhdmOffset (survivors system.scheduler procs) none next ticks

theorem Terminated.frame_kept {next : System Heap} (terminated : Terminated system next)
    (apart : FrameApart frame (currentProcess system.scheduler)) :
    readContext next.machine.memory frame = readContext system.machine.memory frame := by
  apply readContext_of_same
  intro address inFrame
  exact terminated.outside (apart address inFrame)

theorem Terminated.keepsSurvivors_iff {next : System Heap} (terminated : Terminated system next)
    (table : ProcessTable system.scheduler procs) (several : 2 ≤ procs.length)
    (apart : ∀ proc ∈ procs, FrameApart frame proc) :
    KeepsSurvivors hhdmOffset procs system next ↔
      (readProcess system.machine.memory (nextProcess system.scheduler)).state ≠
        ProcessState.running.code := by
  have nonempty : procs ≠ [] := List.ne_nil_of_length_pos (by omega)
  have left := terminated.table table several
  have leftNonempty : survivors system.scheduler procs ≠ [] := by
    apply List.ne_nil_of_length_pos
    rw [survivors, List.length_eraseIdx_of_lt (table.current nonempty)]
    omega
  have isCurrent := terminated.current table several
  have membership : nextProcess system.scheduler ∈ survivors system.scheduler procs := by
    rw [← isCurrent]
    exact left.current_mem leftNonempty
  have slid : Running next.scheduler next.machine.memory ↔
      (readProcess system.machine.memory (nextProcess system.scheduler)).state =
        ProcessState.running.code := by
    rw [Running, isCurrent, terminated.survivor table nonempty membership]
  constructor
  · -- A tick that interrupts anything else than its saved context changes it.
    intro keeps hasRun
    let record := readProcess next.machine.memory (nextProcess system.scheduler)
    let tick : Tick := ⟨frame, fun position => record.ctx position + 1#8⟩
    have leftApart : tick.Apart (survivors system.scheduler procs) :=
      fun proc inLeft => apart proc (List.mem_of_mem_eraseIdx inLeft)
    have tickApart : ∀ other ∈ [tick], other.Apart procs := by
      intro other inTicks
      rw [List.mem_singleton.mp inTicks]
      exact apart
    have undisturbed := (keeps [tick] tickApart).1 _ membership
    have dispatched := tick.apply_spec hhdmOffset left leftNonempty leftApart
    have saved := congrArg Process.ctx (dispatched.records _ membership)
    rw [Process.dispatched] at saved
    dsimp only at saved
    rw [if_pos ⟨isCurrent.symm, slid.mpr hasRun⟩] at saved
    rw [if_neg (by simp), saved] at undisturbed
    have byte := congrFun undisturbed ⟨0, by decide⟩
    change record.ctx _ + 1#8 = record.ctx _ at byte
    bv_omega
  · intro notRun ticks ticksApart
    have none : owner next.scheduler next.machine.memory = none :=
      if_neg fun running => notRun (slid.mp running)
    rw [← none]
    apply undisturbed_owner ticks left leftNonempty
    exact fun tick inTicks proc inLeft =>
      ticksApart tick inTicks proc (List.mem_of_mem_eraseIdx inLeft)

/-- The `exit()` call of a running process that is not the last one. -/
theorem syscallHandler_exit (devices : U32 → Option (Handle Heap)) (hhdmOffset : U64) (fuel : Nat)
    (table : ProcessTable system.scheduler procs) (several : 2 ≤ procs.length)
    (running : Running system.scheduler system.machine.memory)
    (number : Memory.load64 system.machine.memory (intFrameRax frame) = 1#64) :
    ∃ next, syscallHandler devices hhdmOffset fuel system frame = some (0#64, next) ∧
      Terminated system next := by
  have terminated := schedulerTerminateCurrentProcess_spec running
  have count := terminated.count table several
  refine ⟨_, ?_, terminated⟩
  have returns : (schedulerTerminateCurrentProcess system).1 = true := by
    have isRunning : ¬Memory.load32 system.machine.memory
        (processState (currentProcess system.scheduler)) ≠ ProcessState.running.code :=
      not_not.mpr running
    have some : system.scheduler.processCount - 1#32 ≠ 0#32 := by
      intro zero
      rw [terminated.processCount, zero] at count
      change 0 = _ at count
      omega
    unfold schedulerTerminateCurrentProcess
    dsimp only
    rw [if_neg isRunning, if_neg some]
  simp only [syscallHandler, number, returns, if_true]

/-- The exit of a running process never returns into a survivor.  The ticks after
it leave the survivors' contexts alone exactly where the process that slides into
its place has not run yet. -/
theorem exit_disturbs_survivors (hhdmOffset : U64) (devices : U32 → Option (Handle Heap)) (fuel : Nat)
    (table : ProcessTable system.scheduler procs) (several : 2 ≤ procs.length)
    (running : Running system.scheduler system.machine.memory)
    (number : Memory.load64 system.machine.memory (intFrameRax frame) = 1#64)
    (apart : ∀ proc ∈ procs, FrameApart frame proc) :
    ∃ next, syscallHandler devices hhdmOffset fuel system frame = some (0#64, next) ∧
      ¬(ReturnsToSurvivor procs frame system next ∧
        KeepsSurvivors hhdmOffset procs system next) ∧
      (KeepsSurvivors hhdmOffset procs system next ↔
        (readProcess system.machine.memory (nextProcess system.scheduler)).state ≠
          ProcessState.running.code) := by
  have nonempty : procs ≠ [] := List.ne_nil_of_length_pos (by omega)
  obtain ⟨next, handled, terminated⟩ :=
    syscallHandler_exit devices hhdmOffset fuel table several running number
  refine ⟨next, handled, ?_, terminated.keepsSurvivors_iff table several apart⟩
  rintro ⟨⟨-, changed⟩, -⟩
  exact changed (terminated.frame_kept (apart _ (table.current_mem nonempty)))

/-! Two processes that have both run -/

/-- Both records are running, the first one has the processor and asks to exit. -/
def bothRun : System Unit where
  heap := ()
  machine := { Machine.cleared 9 with
    memory := fun address => if address ∈ [0x2008#64, 0x3008#64, 0x10088#64] then 1#8 else 0#8 }
  scheduler :=
    { processes := fun index => if index = 0#32 then 0x2000#64 else 0x3000#64
      processCount := 2#32
      currentIndex := 0#32 }
  pidCounter := 2#64
  cr3 := 0#64

theorem bothRun_table : ProcessTable bothRun.scheduler [0x2000#64, 0x3000#64] := by
  refine
    { count := rfl
      bound := by decide
      listed := ?listed
      current := fun _ => Nat.zero_lt_two
      nonnull := by simp
      nodup := by simp
      separate := ?separate }
  case listed =>
    intro index proc found
    match index with
    | 0 => exact Option.some.inj found
    | 1 => exact Option.some.inj found
    | index + 2 => cases found
  case separate =>
    intro proc membership other otherIn different address inRecord inOther
    unfold InRange processSize at inRecord inOther
    simp only [List.mem_cons, List.not_mem_nil, or_false] at membership otherIn
    rcases membership with rfl | rfl <;> rcases otherIn with rfl | rfl
    · exact different rfl
    · bv_omega
    · bv_omega
    · exact different rfl

theorem bothRun_apart : ∀ proc ∈ [0x2000#64, 0x3000#64], FrameApart 0x10000#64 proc := by
  intro proc membership address inFrame inRecord
  unfold InRange intFrameSize processSize at *
  simp only [List.mem_cons, List.not_mem_nil, or_false] at membership
  rcases membership with rfl | rfl <;> bv_omega

theorem exit_disturbs_survivors_bothRun :
    ∃ next, syscallHandler (fun _ => none) 0#64 0 bothRun 0x10000#64 = some (0#64, next) ∧
      ¬KeepsSurvivors 0#64 [0x2000#64, 0x3000#64] bothRun next := by
  obtain ⟨next, handled, -, keeps⟩ := exit_disturbs_survivors 0#64 (fun _ => none)
    0 bothRun_table (by decide) (by decide) (by decide) bothRun_apart
  exact ⟨next, handled, fun kept => keeps.mp kept (by decide)⟩

/-- The first process exits into itself. -/
theorem exit_returns_into_itself :
    ¬∀ (hhdmOffset frame : U64) (devices : U32 → Option (Handle Unit)) (fuel : Nat)
      (system : System Unit) (procs : List U64),
      ProcessTable system.scheduler procs → 2 ≤ procs.length →
      Running system.scheduler system.machine.memory →
      Memory.load64 system.machine.memory (intFrameRax frame) = 1#64 →
      (∀ proc ∈ procs, FrameApart frame proc) →
      ∃ next, syscallHandler devices hhdmOffset fuel system frame = some (0#64, next) ∧
        ReturnsToSurvivor procs frame system next ∧
        KeepsSurvivors hhdmOffset procs system next := by
  intro claim
  obtain ⟨claimed, handled, ⟨-, changed⟩, -⟩ := claim 0#64 0x10000#64 (fun _ => none) 0 bothRun
    [0x2000#64, 0x3000#64] bothRun_table (by decide) (by decide) (by decide) bothRun_apart
  have number : Memory.load64 bothRun.machine.memory (intFrameRax 0x10000#64) = 1#64 := by decide
  obtain ⟨next, isNext, terminated⟩ := syscallHandler_exit (fun _ => none) 0#64 0 bothRun_table
    (by decide) (by decide) number
  rw [handled] at isNext
  obtain rfl := (Prod.mk.inj (Option.some.inj isNext)).2
  exact changed (terminated.frame_kept (bothRun_apart _ List.mem_cons_self))

end Nekonix
