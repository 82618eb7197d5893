import Nekonix.Proc.Scheduler.Transparency

/-!
# What an exit gives back

As long as nothing exits, the frames of the processes stay off the free stack.
An exit that takes effect never gives back what the process took.
-/

namespace Nekonix

open FlatMemory RadixTable Transition

variable {Heap : Type} {hhdmOffset : U64} {kernel : Frame} {held : Heap → Set Frame}
  {files : Files Heap} {history : History Heap} {system : System Heap} {owneds : List Owned}

theorem pmmFreePage_foldl_full {machine : Machine} (full : machine.stack.idx ≥ machine.stack.max)
    (ptrs : List U64) : ptrs.foldl pmmFreePage machine = machine := by
  induction ptrs with
  | nil => rfl
  | cons ptr rest inductionHypothesis =>
      rw [List.foldl_cons, pmmFreePage_full full, inductionHypothesis]

/-- Several frees push the pointers that are not null, as far as there is room. -/
theorem pmmFreePage_foldl (machine : Machine) (ptrs : List U64) :
    ∃ pushed, (ptrs.foldl pmmFreePage machine).free = machine.free ++ pushed ∧
      pushed <+: ptrs.filter fun ptr => ptr ≠ 0#64 := by
  induction ptrs generalizing machine with
  | nil => exact ⟨[], by simp, List.nil_prefix⟩
  | cons ptr rest inductionHypothesis =>
      by_cases null : ptr = 0#64
      · obtain ⟨pushed, free, isPrefix⟩ := inductionHypothesis machine
        refine ⟨pushed, ?_, ?_⟩
        · rw [List.foldl_cons, null, pmmFreePage_null, free]
        · simpa [null] using isPrefix
      · by_cases full : machine.stack.idx ≥ machine.stack.max
        · exact ⟨[], by rw [pmmFreePage_foldl_full full, List.append_nil], List.nil_prefix⟩
        · obtain ⟨pushed, free, isPrefix⟩ := inductionHypothesis (pmmFreePage machine ptr)
          refine ⟨ptr :: pushed, ?_, ?_⟩
          · rw [List.foldl_cons, free, pmmFreePage_free null (BitVec.not_le.mp full),
              List.append_assoc, List.singleton_append]
          · simpa [null] using isPrefix

/-- What `process_destroy` frees. -/
theorem processDestroy_eq (machine : Machine) (proc : U64) :
    processDestroy machine proc =
      [Memory.load64 machine.memory (processPagemap proc),
        Memory.load64 machine.memory (processPagemap proc),
        Memory.load64 machine.memory (intFrameRsp (processCtx proc)), proc].foldl pmmFreePage
        machine := by
  simp [processDestroy, vmmDestroyPagemap]

/-- The pagemap goes first, and twice. -/
theorem not_nodup_of_destroyed {pagemap rsp proc : U64} {pushed : List U64}
    (isPrefix : pushed <+: [pagemap, pagemap, rsp, proc].filter fun ptr => ptr ≠ 0#64)
    (long : 3 ≤ pushed.length) : ¬pushed.Nodup := by
  by_cases null : pagemap = 0#64
  · have short := isPrefix.length_le
    have most := List.length_filter_le (fun ptr => decide (ptr ≠ 0#64)) [rsp, proc]
    simp only [null, ne_eq, List.filter_cons, not_true_eq_false, decide_false] at short most
    simp at short most
    omega
  · rw [List.filter_cons_of_pos (by simpa using null), List.filter_cons_of_pos (by simpa using null)]
      at isPrefix
    obtain ⟨rest, whole⟩ := isPrefix
    cases pushed with
    | nil => cases long
    | cons first more =>
        cases more with
        | nil => simp at long
        | cons second others =>
            simp only [List.cons_append, List.cons.injEq] at whole
            obtain ⟨rfl, rfl, -⟩ := whole
            simp

theorem processDestroy_free (machine : Machine) (proc : U64) :
    ∃ pushed, (processDestroy machine proc).free = machine.free ++ pushed ∧
      (3 ≤ pushed.length → ¬pushed.Nodup) := by
  rw [processDestroy_eq]
  obtain ⟨pushed, free, isPrefix⟩ := pmmFreePage_foldl machine
    [Memory.load64 machine.memory (processPagemap proc),
      Memory.load64 machine.memory (processPagemap proc),
      Memory.load64 machine.memory (intFrameRsp (processCtx proc)), proc]
  exact ⟨pushed, free, not_nodup_of_destroyed isPrefix⟩

/-- The exit of the process at `current_index` while it runs. -/
theorem schedulerTerminate_free
    (running : Running system.scheduler system.machine.memory) :
    ∃ pushed, (schedulerTerminateCurrentProcess system).2.machine.free =
        system.machine.free ++ pushed ∧
      (3 ≤ pushed.length → ¬pushed.Nodup) := by
  have effective : ¬(Memory.load32 system.machine.memory
      (processState (currentProcess system.scheduler)) ≠ ProcessState.running.code) :=
    fun idle => idle running
  obtain ⟨pushed, free, repeated⟩ := processDestroy_free
    { system.machine with
      memory := Memory.store32 system.machine.memory
        (processState (currentProcess system.scheduler)) ProcessState.terminated.code }
    (currentProcess system.scheduler)
  refine ⟨pushed, ?_, repeated⟩
  refine Eq.trans ?_ free
  unfold schedulerTerminateCurrentProcess
  dsimp only
  rw [if_neg effective]
  split <;> rfl

namespace Orderly

/-- The frames of a process, and that they are three or more. -/
theorem taken (orderly : Orderly hhdmOffset kernel held owneds history) {birth : Birth}
    (isBirth : birth ∈ history.births) :
    birth.taken.Nodup ∧ 3 ≤ birth.taken.length ∧
      ∀ page ∈ birth.taken, page ∉ history.system.machine.free := by
  rw [orderly.births] at isBirth
  obtain ⟨owned, isOwned, rfl⟩ := List.mem_map.mp isBirth
  have nodup : owned.frames.Nodup := (List.nodup_flatMap.mp orderly.nodup).1 owned isOwned
  refine ⟨?_, ?_, ?_⟩
  · exact (List.nodup_reverse.mpr nodup).map fun first second same => Frame.address_inj.mp same
  · simp [Owned.birth, Owned.frames]
  · intro page membership
    obtain ⟨frame, isFrame, rfl⟩ := List.mem_map.mp membership
    exact (orderly.withheld owned isOwned frame (List.mem_reverse.mp isFrame)).1

/-- An exit that takes effect does not push what any process took. -/
theorem exit_not_perm (orderly : Orderly hhdmOffset kernel held owneds history) {birth : Birth}
    (isBirth : birth ∈ history.births)
    (running : Running history.system.scheduler history.system.machine.memory)
    {pushed : List U64}
    (free : (schedulerTerminateCurrentProcess history.system).2.machine.free =
      history.system.machine.free ++ pushed) : ¬pushed.Perm birth.taken := by
  intro perm
  obtain ⟨nodup, long, -⟩ := orderly.taken isBirth
  obtain ⟨actual, isActual, repeated⟩ := schedulerTerminate_free running
  obtain rfl := List.append_cancel_left (isActual.symm.trans free)
  rw [← perm.length_eq] at long
  exact repeated long (perm.nodup_iff.mpr nodup)

end Orderly

end Nekonix
