import Nekonix.Library.RoundRobin
import Nekonix.Library.Run
import Nekonix.Proc.Scheduler.Roster

/-!
# Fairness

Ticks dispatch the processes in turn.  An exit leaves `current_index` at the
process that slid into the place of the one that is gone, and the next tick
starts behind it: that process loses its turn.
-/

namespace Nekonix

open FlatMemory Transition RoundRobin

variable {Heap : Type} {hhdmOffset : U64} {system : System Heap} {scheduler : Scheduler}
  {procs : List U64}

/-- A timer tick, or an exit of the process at `current_index`. -/
inductive Turn where
  | tick (interrupt : Tick)
  | exit

/-- A system with the processes dispatched so far, each with those that were listed
at the time. -/
structure Watch (Heap : Type) where
  system : System Heap
  log : List (U64 × List U64)

def Watch.after (hhdmOffset : U64) (watch : Watch Heap) : Turn → Watch Heap
  | .tick interrupt =>
      let next := interrupt.apply hhdmOffset watch.system
      { system := next
        log :=
          if next.scheduler.processCount = 0#32 then watch.log
          else watch.log ++ [(currentProcess next.scheduler, next.scheduler.entries)] }
  | .exit => { watch with system := (schedulerTerminateCurrentProcess watch.system).2 }

/-- There is a process that exits. -/
def Watch.Issued (watch : Watch Heap) : Turn → Prop
  | .tick _ => True
  | .exit => watch.system.scheduler.processCount ≠ 0#32

/-- An exit that takes effect comes before any process has been dispatched, other than
the one that exits and the one that slides into its place. -/
def Watch.Considerate (watch : Watch Heap) : Turn → Prop
  | .tick _ => True
  | .exit =>
      Running watch.system.scheduler watch.system.machine.memory →
        ∀ proc ∈ watch.system.scheduler.entries,
          proc ≠ currentProcess watch.system.scheduler →
          proc ≠ nextProcess watch.system.scheduler →
          proc ∉ watch.log.map Prod.fst

/-- The processes in the order in which ticks dispatch them. -/
def Scheduler.line (scheduler : Scheduler) : List U64 :=
  lineOf scheduler.entries scheduler.currentIndex.toNat

/-! What a turn does to the line -/

/-- A tick with processes in the table moves `current_index` on, whatever the memory. -/
theorem Tick.apply_scheduler (hhdmOffset : U64) (tick : Tick) (system : System Heap) :
    (tick.apply hhdmOffset system).scheduler =
      if system.scheduler.processCount = 0#32 then system.scheduler
      else { system.scheduler with currentIndex := nextIndex system.scheduler } := by
  unfold Tick.apply timerInterruptHandler schedulerContextSwitch System.interrupted
  dsimp only
  split_ifs <;> rfl

theorem ProcessTable.line (table : ProcessTable scheduler procs) :
    scheduler.line = lineOf procs scheduler.currentIndex.toNat := by
  rw [Scheduler.line, table.entries]

/-- The first in line is the next process, and then it is the last. -/
theorem ProcessTable.line_advance (table : ProcessTable scheduler procs) {proc : U64}
    {rest : List U64} (line : scheduler.line = proc :: rest) :
    nextProcess scheduler = proc ∧
      Scheduler.line { scheduler with currentIndex := nextIndex scheduler } = rest ++ [proc] := by
  have nonempty : procs ≠ [] := by
    rintro rfl
    rw [table.line, lineOf, List.rotate_nil] at line
    cases line
  rw [table.line] at line
  obtain ⟨atNext, moved⟩ := lineOf_serve line (table.current nonempty)
  have index := table.nextIndex_toNat nonempty
  rw [← index] at atNext moved
  constructor
  · have listed := table.at_index (table.nextIndex_lt nonempty)
    exact Option.some.inj (listed.symm.trans atNext)
  · rw [(table.advance nonempty).line]
    exact moved

/-- The last in line is gone, and the first waits at the end without its turn. -/
theorem Terminated.line {next : System Heap} (terminated : Terminated system next)
    (table : ProcessTable system.scheduler procs) (several : 2 ≤ procs.length) :
    ∃ proc rest, system.scheduler.line = proc :: (rest ++ [currentProcess system.scheduler]) ∧
      next.scheduler.line = rest ++ [proc] := by
  have nonempty : procs ≠ [] := List.ne_nil_of_length_pos (by omega)
  have below := table.current nonempty
  obtain ⟨proc, rest, last, atIndex, line, left⟩ := lineOf_leave below several
  have isLast : last = currentProcess system.scheduler :=
    Option.some.inj (atIndex.symm.trans (table.at_index below))
  have count := terminated.count table several
  have some : next.scheduler.processCount ≠ 0#32 := by
    intro zero
    rw [zero] at count
    change 0 = _ at count
    omega
  refine ⟨proc, rest, ?_, ?_⟩
  · rw [table.line, line, isLast]
  · rw [(terminated.table_left table nonempty).line, terminated.currentIndex some,
      BitVec.toNat_umod, count]
    exact left

/-! The invariant of a run -/

/-- The table lists the processes, and those who wait longer were dispatched less
recently. -/
def Watch.Kept (watch : Watch Heap) : Prop :=
  ∃ procs, ProcessTable watch.system.scheduler procs ∧ Fair watch.system.scheduler.line watch.log

theorem ProcessTable.mem_line (table : ProcessTable scheduler procs) {proc : U64} :
    proc ∈ scheduler.line ↔ proc ∈ procs := by
  rw [table.line, lineOf, List.mem_rotate]

theorem ProcessTable.nodup_line (table : ProcessTable scheduler procs) : scheduler.line.Nodup := by
  rw [table.line, lineOf, List.nodup_rotate]
  exact table.nodup

theorem Watch.kept_start (table : ProcessTable system.scheduler procs) :
    Watch.Kept { system, log := [] } :=
  ⟨procs, table, .start table.nodup_line⟩

/-- A tick dispatches the first in line. -/
theorem Watch.after_tick {watch : Watch Heap} (hhdmOffset : U64) (interrupt : Tick)
    (table : ProcessTable watch.system.scheduler procs) {proc : U64} {rest : List U64}
    (line : watch.system.scheduler.line = proc :: rest) :
    (watch.after hhdmOffset (.tick interrupt)).system.scheduler.line = rest ++ [proc] ∧
      (watch.after hhdmOffset (.tick interrupt)).log = watch.log ++ [(proc, procs)] ∧
      ProcessTable (watch.after hhdmOffset (.tick interrupt)).system.scheduler procs := by
  have nonempty : procs ≠ [] := by
    rintro rfl
    have membership := @List.mem_cons_self _ proc rest
    rw [← line, table.mem_line] at membership
    cases membership
  obtain ⟨isNext, moved⟩ := table.line_advance line
  have some := table.count_ne_zero nonempty
  have advanced := table.advance nonempty
  have scheduler := interrupt.apply_scheduler hhdmOffset watch.system
  rw [if_neg some] at scheduler
  simp only [Watch.after]
  rw [scheduler]
  refine ⟨moved, ?_, advanced⟩
  rw [if_neg some, advanced.entries]
  exact congrArg (fun process => watch.log ++ [(process, procs)]) isNext

theorem Watch.Kept.tick {watch : Watch Heap} (kept : watch.Kept) (interrupt : Tick) :
    (watch.after hhdmOffset (.tick interrupt)).Kept := by
  obtain ⟨procs, table, fair⟩ := kept
  cases line : watch.system.scheduler.line with
  | nil =>
      have empty : procs = [] := by
        rw [table.line, lineOf, List.rotate_eq_nil_iff] at line
        exact line
      have none : watch.system.scheduler.processCount = 0#32 := by
        have count := table.count
        rw [empty] at count
        exact BitVec.eq_of_toNat_eq count
      have scheduler := interrupt.apply_scheduler hhdmOffset watch.system
      rw [if_pos none] at scheduler
      refine ⟨procs, ?_, ?_⟩
      · simp only [Watch.after, scheduler]
        exact table
      · simp only [Watch.after, scheduler, if_pos none]
        exact fair
  | cons proc rest =>
      obtain ⟨moved, logged, advanced⟩ := watch.after_tick hhdmOffset interrupt table line
      refine ⟨procs, advanced, ?_⟩
      rw [moved, logged]
      rw [line] at fair
      refine fair.serve ?_
      intro other
      rw [← line, table.mem_line]

theorem Watch.Kept.exit {watch : Watch Heap} (kept : watch.Kept) (issued : watch.Issued .exit)
    (considerate : watch.Considerate .exit) : (watch.after hhdmOffset .exit).Kept := by
  obtain ⟨procs, table, fair⟩ := kept
  have nonempty : procs ≠ [] := by
    rintro rfl
    exact issued (BitVec.eq_of_toNat_eq table.count)
  by_cases running : Running watch.system.scheduler watch.system.machine.memory
  · have terminated := schedulerTerminateCurrentProcess_spec running
    have left := terminated.table_left table nonempty
    refine ⟨_, left, ?_⟩
    by_cases several : 2 ≤ procs.length
    · obtain ⟨proc, rest, line, moved⟩ := terminated.line table several
      have isNext := (table.line_advance line).1
      have nodup := table.nodup_line
      rw [line] at nodup fair
      obtain ⟨notProc, restNodup⟩ := List.nodup_cons.mp nodup
      have notLast := (List.nodup_append.mp restNodup).2.2
      simp only [Watch.after, moved]
      refine fair.leave ?_
      intro other inRest
      apply considerate running
      · rw [table.entries, ← table.mem_line, line]
        exact List.mem_cons_of_mem _ (List.mem_append_left _ inRest)
      · exact notLast other inRest _ (List.mem_singleton_self _)
      · rintro rfl
        rw [isNext] at inRest
        exact notProc (List.mem_append_left _ inRest)
    · have none : survivors watch.system.scheduler procs = [] := by
        apply List.eq_nil_of_length_eq_zero
        rw [survivors, List.length_eraseIdx_of_lt (table.current nonempty)]
        omega
      rw [none] at left
      simp only [Watch.after]
      rw [left.line, lineOf, List.rotate_nil]
      exact .none fair.noBypass
  · have unchanged := schedulerTerminateCurrentProcess_idle running
    refine ⟨procs, ?_, ?_⟩
    · simp only [Watch.after, unchanged]
      exact table
    · simp only [Watch.after, unchanged]
      exact fair

/-! The turn that is lost -/

/-- A number of ticks. -/
def Watch.ticks (hhdmOffset : U64) (watch : Watch Heap) (interrupts : List Tick) : Watch Heap :=
  interrupts.foldl (fun watch interrupt => watch.after hhdmOffset (.tick interrupt)) watch

/-- The first processes in line are dispatched, one by each tick. -/
theorem Watch.log_ticks {watch : Watch Heap} (hhdmOffset : U64)
    (table : ProcessTable watch.system.scheduler procs) {served waiting : List U64}
    (line : watch.system.scheduler.line = served ++ waiting) {interrupts : List Tick}
    (count : interrupts.length = served.length) :
    (watch.ticks hhdmOffset interrupts).log =
      watch.log ++ served.map fun proc => (proc, procs) := by
  induction served generalizing watch waiting interrupts with
  | nil =>
      rw [List.eq_nil_of_length_eq_zero count]
      exact (List.append_nil _).symm
  | cons proc served inductionHypothesis =>
      cases interrupts with
      | nil => cases count
      | cons interrupt interrupts =>
          rw [List.cons_append] at line
          obtain ⟨moved, logged, advanced⟩ := watch.after_tick hhdmOffset interrupt table line
          rw [List.append_assoc] at moved
          have further := inductionHypothesis advanced moved (Nat.succ.inj count)
          rw [Watch.ticks, List.foldl_cons, ← Watch.ticks, further, logged, List.append_assoc]
          rfl

/-- After an exit that is not considerate, ticks alone bypass the process that slid
into the free place. -/
theorem Watch.Kept.bypass {watch : Watch Heap} (kept : watch.Kept) (hhdmOffset : U64)
    (inconsiderate : ¬watch.Considerate .exit) :
    ∃ count, ∀ interrupts : List Tick, interrupts.length = count →
      ¬NoBypass ((watch.after hhdmOffset .exit).ticks hhdmOffset interrupts).log := by
  obtain ⟨procs, table, fair⟩ := kept
  simp only [Watch.Considerate, Classical.not_forall] at inconsiderate
  obtain ⟨running, other, listed, notCurrent, notNext, served⟩ := inconsiderate
  rw [not_not] at served
  rw [table.entries] at listed
  have nonempty : procs ≠ [] := List.ne_nil_of_mem listed
  have several : 2 ≤ procs.length := by
    by_contra single
    have one : procs.length = 1 := by
      have positive := List.length_pos_iff.mpr nonempty
      omega
    obtain ⟨only, rfl⟩ := List.length_eq_one_iff.mp one
    have current := table.current_mem nonempty
    rw [List.mem_singleton.mp current, List.mem_singleton.mp listed] at notCurrent
    exact notCurrent rfl
  have terminated := schedulerTerminateCurrentProcess_spec running
  have left := terminated.table_left table nonempty
  obtain ⟨proc, rest, line, moved⟩ := terminated.line table several
  have isNext := (table.line_advance line).1
  have nodup := table.nodup_line
  have inLine := table.mem_line.mpr listed
  rw [line] at nodup fair inLine
  obtain ⟨notProc, restNodup⟩ := List.nodup_cons.mp nodup
  have inRest : other ∈ rest := by
    rcases List.mem_cons.mp inLine with isProc | later
    · exact absurd (isProc.trans isNext.symm) notNext
    · rcases List.mem_append.mp later with inRest | isLast
      · exact inRest
      · exact absurd (List.mem_singleton.mp isLast) notCurrent
  have procLeft : proc ∈ survivors watch.system.scheduler procs := by
    rw [← left.mem_line, moved]
    exact List.mem_append_right _ (List.mem_singleton_self _)
  obtain ⟨early, late, rfl⟩ := List.append_of_mem inRest
  have ahead : (schedulerTerminateCurrentProcess watch.system).2.scheduler.line =
      (early ++ [other]) ++ (late ++ [proc]) := by
    rw [moved]
    simp
  refine ⟨(early ++ [other]).length, ?_⟩
  intro interrupts count
  have log := @Watch.log_ticks _ _ (watch.after hhdmOffset .exit) hhdmOffset left _ _ ahead _ count
  have numbers : ∀ processes : List U64,
      (processes.map fun process => (process, survivors watch.system.scheduler procs)).map
        Prod.fst = processes := by
    intro processes
    rw [List.map_map]
    exact List.map_id _
  rw [log, List.map_append]
  refine fair.bypass (List.mem_append_left _ inRest) served ?_ ?_ procLeft
  · rw [numbers]
    exact fun inEarly => notProc (List.mem_append_left _ (List.mem_append_left _ inEarly))
  · rw [numbers]
    intro inEarly
    have disjoint := (List.nodup_append.mp (List.nodup_append.mp restNodup).1).2.2
    exact disjoint other inEarly other List.mem_cons_self rfl

/-- Where every exit is considerate, nobody is bypassed; an exit that is not leads to a
bypass by ticks alone. -/
theorem considerate_exits_bypass_nobody {turns : List Turn} {watch : Watch Heap}
    (table : ProcessTable system.scheduler procs)
    (run : Run (guarded (Watch.after hhdmOffset)
      fun watch turn => watch.Issued turn ∧ watch.Considerate turn)
      { system, log := [] } turns watch) :
    NoBypass watch.log ∧
      (¬watch.Considerate .exit → ∃ count, ∀ interrupts : List Tick, interrupts.length = count →
        ¬NoBypass ((watch.after hhdmOffset .exit).ticks hhdmOffset interrupts).log) := by
  have kept : watch.Kept := by
    refine run.invariant Watch.Kept (Watch.kept_start table) ?_
    rintro before turn after kept ⟨⟨issued, considerate⟩, rfl⟩
    cases turn with
    | tick interrupt => exact kept.tick interrupt
    | exit => exact kept.exit issued considerate
  refine ⟨?_, kept.bypass hhdmOffset⟩
  obtain ⟨_, _, fair⟩ := kept
  exact fair.noBypass

/-! Three processes -/

/-- Three records that have not run, the first one at `current_index`. -/
def threeNew : System Unit where
  heap := ()
  machine := .cleared 0
  scheduler :=
    { processes := fun index =>
        if index = 0#32 then 0x2000#64 else if index = 1#32 then 0x3000#64 else 0x4000#64
      processCount := 3#32
      currentIndex := 0#32 }
  pidCounter := 3#64
  cr3 := 0#64

theorem threeNew_table : ProcessTable threeNew.scheduler [0x2000#64, 0x3000#64, 0x4000#64] := by
  refine
    { count := rfl
      bound := by decide
      listed := ?listed
      current := fun _ => Nat.zero_lt_succ 2
      nonnull := by simp
      nodup := by simp
      separate := ?separate }
  case listed =>
    intro index proc found
    match index with
    | 0 => exact Option.some.inj found
    | 1 => exact Option.some.inj found
    | 2 => exact Option.some.inj found
    | index + 3 => cases found
  case separate =>
    intro proc membership other otherIn different address inRecord inOther
    unfold InRange processSize at inRecord inOther
    simp only [List.mem_cons, List.not_mem_nil, or_false] at membership otherIn
    rcases membership with rfl | rfl | rfl <;> rcases otherIn with rfl | rfl | rfl <;>
      first | exact different rfl | bv_omega

/-- An interrupt whose frame lies beside the records. -/
def lowTick : Tick := ⟨0x10000#64, fun _ => 0#8⟩

theorem lowTick_apart : lowTick.Apart [0x2000#64, 0x3000#64, 0x4000#64] := by
  intro proc membership address inFrame inRecord
  unfold InRange lowTick intFrameSize processSize at *
  simp only [List.mem_cons, List.not_mem_nil, or_false] at membership
  rcases membership with rfl | rfl | rfl <;> bv_omega

/-- Each has had its turn, and the first one has the processor again. -/
theorem threeNew_inconsiderate :
    ¬(Watch.ticks 0#64 { system := threeNew, log := [] } [lowTick, lowTick, lowTick]).Considerate
      .exit := by
  have line : threeNew.scheduler.line = [0x3000#64, 0x4000#64, 0x2000#64] := by decide
  obtain ⟨firstLine, firstLog, firstTable⟩ :=
    @Watch.after_tick Unit _ { system := threeNew, log := [] } 0#64 lowTick threeNew_table _ _ line
  obtain ⟨secondLine, secondLog, secondTable⟩ :=
    Watch.after_tick 0#64 lowTick firstTable firstLine
  obtain ⟨thirdLine, thirdLog, thirdTable⟩ := Watch.after_tick 0#64 lowTick secondTable secondLine
  have dispatched := lowTick.apply_spec 0#64 secondTable (by simp) lowTick_apart
  obtain ⟨isCurrent, running⟩ := dispatched.running secondTable (by simp)
  have current := isCurrent.trans (secondTable.line_advance secondLine).1
  have next := (thirdTable.line_advance thirdLine).1
  intro considerate
  refine considerate running 0x4000#64 ?_ ?_ ?_ ?_
  · exact (congrArg (0x4000#64 ∈ ·) thirdTable.entries).mpr (by simp)
  · exact fun same => absurd (same.trans current) (by decide)
  · exact fun same => absurd (same.trans next) (by decide)
  · rw [secondLog, firstLog] at thirdLog
    exact (congrArg (fun log => 0x4000#64 ∈ log.map Prod.fst) thirdLog).mpr (by simp)

/-- A run of ticks. -/
theorem run_ticks {Allowed : Watch Heap → Turn → Prop} {start watch : Watch Heap}
    {turns : List Turn} (free : ∀ watch interrupt, Allowed watch (.tick interrupt))
    (run : Run (guarded (Watch.after hhdmOffset) Allowed) start turns watch)
    (interrupts : List Tick) :
    ∃ further, Run (guarded (Watch.after hhdmOffset) Allowed) start further
      (watch.ticks hhdmOffset interrupts) := by
  induction interrupts generalizing watch turns with
  | nil => exact ⟨turns, run⟩
  | cons interrupt interrupts inductionHypothesis =>
      exact inductionHypothesis (run.snoc ⟨free watch interrupt, rfl⟩)

/-- After three ticks nobody has been bypassed, and an exit then leads to a bypass. -/
theorem considerate_exits_bypass_nobody_three :
    NoBypass (Watch.ticks 0#64 { system := threeNew, log := [] }
      [lowTick, lowTick, lowTick]).log ∧
    ∃ count, ∀ interrupts : List Tick, interrupts.length = count →
      ¬NoBypass (((Watch.ticks 0#64 { system := threeNew, log := [] }
        [lowTick, lowTick, lowTick]).after 0#64 .exit).ticks 0#64 interrupts).log := by
  obtain ⟨turns, run⟩ := @run_ticks Unit 0#64
    (fun watch turn => watch.Issued turn ∧ watch.Considerate turn) { system := threeNew, log := [] }
    _ [] (fun _ _ => ⟨trivial, trivial⟩) .nil [lowTick, lowTick, lowTick]
  obtain ⟨noBypass, bypass⟩ := considerate_exits_bypass_nobody threeNew_table run
  exact ⟨noBypass, bypass threeNew_inconsiderate⟩

/-- An exit that is not considerate takes effect, so there is a process that exits. -/
theorem Watch.issued_of_inconsiderate {watch : Watch Heap}
    (inconsiderate : ¬watch.Considerate .exit) : watch.Issued .exit := by
  intro none
  apply inconsiderate
  intro _ proc listed
  rw [Scheduler.entries, none] at listed
  cases listed

/-- When the first of three processes that all ran exits, the second one is bypassed. -/
theorem exit_bypasses : ¬∀ (hhdmOffset : U64) (system : System Unit) (procs : List U64)
    (turns : List Turn) (watch : Watch Unit), ProcessTable system.scheduler procs →
    Run (guarded (Watch.after hhdmOffset) Watch.Issued) { system, log := [] } turns watch →
    NoBypass watch.log := by
  intro never
  have free : ∀ (watch : Watch Unit) interrupt, watch.Issued (.tick interrupt) :=
    fun _ _ => trivial
  obtain ⟨turns, run⟩ := @run_ticks Unit 0#64 Watch.Issued { system := threeNew, log := [] }
    _ [] free .nil [lowTick, lowTick, lowTick]
  have kept : (Watch.ticks 0#64 { system := threeNew, log := [] }
      [lowTick, lowTick, lowTick]).Kept :=
    (((Watch.kept_start threeNew_table).tick lowTick).tick lowTick).tick lowTick
  obtain ⟨count, bypass⟩ := kept.bypass 0#64 threeNew_inconsiderate
  obtain ⟨further, longer⟩ := run_ticks free
    (run.snoc ⟨Watch.issued_of_inconsiderate threeNew_inconsiderate, rfl⟩)
    (List.replicate count lowTick)
  exact bypass _ List.length_replicate (never _ _ _ _ _ threeNew_table longer)

end Nekonix
