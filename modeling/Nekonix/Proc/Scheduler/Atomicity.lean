import Nekonix.Dev.Hvfs.HeapCalls
import Nekonix.Mm.Vmm.Cleared
import Nekonix.Proc.Elf.Failure
import Nekonix.Proc.Scheduler.Creation

/-!
# Failing creations

`scheduler_create_elf_process` over the file tree and the handles of `hvfs.c`.  It has
opened a file, allocated a buffer and requested frames by the time it can still fail,
and gives none of that back.
-/

namespace Nekonix

open HeapLedger

/-! The file system and the kernel heap -/

/-- The file tree and the open `FILE`s, what `strtok` has in `last`, and the heap calls
so far.  The heap has the blocks it gives out. -/
structure FileHeap where
  vfs : Vfs
  files : U64 → Option Hvfs.File
  last : U64
  calls : List HeapCall

namespace FileHeap

/-- The blocks that are in use. -/
def live (heap : FileHeap) : Set U64 := blocks 0#64 ∅ heap.calls

def state (heap : FileHeap) (memory : Memory) : Hvfs.State := ⟨heap.vfs, heap.files, memory⟩

/-- The string at `path`, which may be `NULL`. -/
def pathText (memory : Memory) (path : U64) : Option (List U8) :=
  if path = 0#64 then none else some (cString memory path)

/-- `open(path, READ_ONLY)`; it stands still where the search for the path does not
return. -/
def openFile (heap : FileHeap) (memory : Memory) (path : U64) : U64 × FileHeap :=
  match Hvfs.openFile (heap.state memory) heap.last (pathText memory path) Hvfs.readOnly with
  | none => (0#64, heap)
  | some (fd, state) =>
      let calls := heap.calls ++
        Hvfs.openCalls (heap.state memory) heap.last (pathText memory path) Hvfs.readOnly
      (fd, { heap with vfs := state.vfs, files := state.files, calls })

def kmalloc (heap : FileHeap) : U64 × FileHeap :=
  let (block, vfs) := heap.vfs.kmalloc
  (block, { heap with vfs, calls := heap.calls ++ [.alloc block] })

def close (heap : FileHeap) (memory : Memory) (file : U64) : FileHeap :=
  let (_, state) := Hvfs.close (heap.state memory) file
  { heap with files := state.files, calls := heap.calls ++ Hvfs.closeCalls file }

/-- `file->vnode` -/
def vnode (heap : FileHeap) (file : U64) : Option Vnode :=
  (heap.files file).bind fun handle => heap.vfs.vnodes handle.vnode

/-- `hvfs_permission_check(file->vnode, 0, VNODE_PERMS_OWNER_EXECUTE)` -/
def executable (heap : FileHeap) (file : U64) : Bool :=
  (heap.files file).bind (fun handle =>
    Hvfs.permissionCheck heap.vfs handle.vnode 0#32 vnodePermsOwnerExecute) = some true

end FileHeap

/-- `hvfs.c` as `scheduler_create_elf_process` uses it. -/
def hvfsFiles : Files FileHeap where
  openFile := fun (heap, machine) path =>
    let (fd, heap) := heap.openFile machine.memory path
    (fd, (heap, machine))
  permissionCheck := fun (heap, _) file => heap.executable file
  vnodeSize := fun (heap, _) file => ((heap.vnode file).map Vnode.size).getD 0#64
  kmalloc := fun (heap, machine) _ =>
    let (block, heap) := heap.kmalloc
    (block, (heap, machine))
  read := fun (heap, machine) file buffer size =>
    match Hvfs.read heap.vfs machine.memory (heap.files file) buffer size with
    | none => (heap, machine)
    | some (_, memory) => (heap, { machine with memory })
  close := fun (heap, machine) file => (heap.close machine.memory file, machine)

variable {hhdmOffset kernelPagemap : U64} {system next : System FileHeap} {heap : FileHeap}
  {machine : Machine} {memory : Memory} {path name : U64}

/-! `open` -/

/-- `vfs_lookup` in `open`, behind the block for the `FILE`. -/
def FileHeap.lookup (heap : FileHeap) (memory : Memory) (path : U64) : Option (U64 × Vfs) :=
  Hvfs.lookup { heap.vfs with supply := heap.vfs.supply.tail } heap.last
    (FileHeap.pathText memory path)

/-- There is no block for the `FILE`, or no such file. -/
def FileHeap.Unopened (heap : FileHeap) (memory : Memory) (path : U64) : Prop :=
  heap.vfs.supply.head?.getD 0#64 = 0#64 ∨ ∃ found, heap.lookup memory path = some (0#64, found)

/-- `open` with the handle `fd`, after the heap calls `looking` of the lookup. -/
structure FileHeap.Opens (heap : FileHeap) (fd : U64) (looking : List HeapCall)
    (after : FileHeap) : Prop where
  nonnull : fd ≠ 0#64
  calls : after.calls = heap.calls ++ ([.alloc fd] ++ looking)
  looking : ∀ held : HeapOwner → U64, Serves 0#64 (fun _ => False) held looking held

theorem FileHeap.openFile_returns (searched : ∃ result, heap.lookup memory path = some result) :
    ∃ result, Hvfs.openFile (heap.state memory) heap.last (FileHeap.pathText memory path)
      Hvfs.readOnly = some result := by
  obtain ⟨⟨node, found⟩, looked⟩ := searched
  unfold FileHeap.lookup at looked
  unfold Hvfs.openFile
  simp only [kmalloc_fst, kmalloc_snd, FileHeap.state, looked]
  split_ifs with failed creates
  · exact ⟨_, rfl⟩
  · exact ⟨_, rfl⟩
  · by_cases absent : node = 0#64
    · exact ⟨_, if_pos absent⟩
    · exact ⟨_, if_neg absent⟩

theorem FileHeap.openFile_cases (searched : ∃ result, heap.lookup memory path = some result) :
    (heap.Unopened memory path ∧ (heap.openFile memory path).1 = 0#64 ∧
      (Honest 0#64 (fun _ => False) ∅ (heap.openFile memory path).2.calls →
        (heap.openFile memory path).2.live = heap.live)) ∨
      (¬heap.Unopened memory path ∧ ∃ looking,
        heap.Opens (heap.openFile memory path).1 looking (heap.openFile memory path).2) := by
  obtain ⟨⟨fd, after⟩, opened⟩ := FileHeap.openFile_returns searched
  unfold FileHeap.openFile
  rw [opened]
  dsimp only
  rcases Hvfs.openFile_cases opened with ⟨rfl, notOpened⟩ | isOpened
  · refine Or.inl ?_
    cases notOpened with
    | unallocated failed =>
        have calls : Hvfs.openCalls (heap.state memory) heap.last (FileHeap.pathText memory path)
            Hvfs.readOnly = [.alloc 0#64] := by
          simp [Hvfs.openCalls, kmalloc_fst, failed]
        refine ⟨Or.inl failed, rfl, fun _ => ?_⟩
        rw [calls, FileHeap.live, blocks_append]
        rfl
    | creating _ creates => exact absurd creates (by decide)
    | @absent found nonnull reads absent =>
        refine ⟨Or.inr ⟨found, absent⟩, rfl, fun honest => ?_⟩
        rw [Hvfs.openCalls_absent nonnull reads absent] at honest ⊢
        rw [FileHeap.live, blocks_append]
        exact blocks_enclosed nonnull (fun _ => Hvfs.lookup_blocks) (along_append.mp honest).2
  · refine Or.inr ⟨?_, Hvfs.lookupCalls { heap.vfs with supply := heap.vfs.supply.tail }
      (FileHeap.pathText memory path), isOpened.nonnull, ?_, Hvfs.lookup_serves _ _ _⟩
    · rintro (failed | ⟨other, absent⟩)
      · exact isOpened.nonnull (isOpened.block.trans failed)
      · obtain ⟨node, found, nonnull, present, -⟩ := isOpened.found
        unfold FileHeap.lookup at absent
        have same := present.symm.trans absent
        rw [Option.some_inj, Prod.mk.injEq] at same
        exact nonnull same.1
    · rw [isOpened.calls]
      rfl

/-- Behind a handle that is not closed the heap has more in use than before. -/
theorem FileHeap.Opens.live_ne {after final : FileHeap} {fd : U64} {looking more : List HeapCall}
    {held : HeapOwner → U64} (opens : heap.Opens fd looking after)
    (calls : final.calls = after.calls ++ more)
    (kept : Serves 0#64 (fun _ => False)
      (Function.update (fun _ : HeapOwner => 0#64) (.file fd) fd) more held)
    (still : held (.file fd) = fd) (honest : Honest 0#64 (fun _ => False) ∅ final.calls) :
    final.live ≠ heap.live := by
  have log : final.calls = heap.calls ++ ([.alloc fd] ++ looking ++ more) := by
    rw [calls, opens.calls, List.append_assoc]
  rw [log] at honest
  have further := (along_append.mp honest).2
  have fresh : fd ∉ heap.live := (further.1.resolve_left opens.nonnull).1
  have serves := ((Serves.alloc (HeapOwner.file fd) fd).trans (opens.looking _)).trans kept
  have owns := (serves heap.live
    ⟨fun _ nonnull => absurd rfl nonnull, fun _ _ nonnull => absurd rfl nonnull⟩ further).2
  have inUse := owns.live (.file fd) (by rw [still]; exact opens.nonnull)
  rw [still] at inUse
  intro same
  apply fresh
  rw [← same, FileHeap.live, log, blocks_append]
  exact inUse

/-! The file and its contents -/

/-- There is a handle and a buffer, and the file's contents are in the buffer. -/
structure FileHeap.Fetches (heap : FileHeap) (machine : Machine) (fd data : U64)
    (after : FileHeap) (loaded : Machine) : Prop where
  opens : ∃ looking opened, heap.Opens fd looking opened ∧
    after.calls = opened.calls ++ [.alloc data]
  stack : loaded.stack = machine.stack

theorem hvfsFiles_read (file buffer size : U64) :
    (hvfsFiles.read (heap, machine) file buffer size).1 = heap ∧
      (hvfsFiles.read (heap, machine) file buffer size).2.stack = machine.stack := by
  unfold hvfsFiles
  dsimp only
  cases Hvfs.read heap.vfs machine.memory (heap.files file) buffer size with
  | none => exact ⟨rfl, rfl⟩
  | some result => exact ⟨rfl, rfl⟩

theorem fetchFile_cases (searched : ∃ result, heap.lookup machine.memory path = some result) :
    (heap.Unopened machine.memory path ∧
      ∃ after, fetchFile hvfsFiles (heap, machine) path = (none, after, machine) ∧
        (Honest 0#64 (fun _ => False) ∅ after.calls → after.live = heap.live)) ∨
    (¬heap.Unopened machine.memory path ∧
      ∃ fd looking after, fetchFile hvfsFiles (heap, machine) path = (none, after, machine) ∧
        heap.Opens fd looking after) ∨
    (¬heap.Unopened machine.memory path ∧
      ∃ fd data after loaded,
        fetchFile hvfsFiles (heap, machine) path = (some (fd, data), after, loaded) ∧
        heap.Fetches machine fd data after loaded) := by
  have cases := FileHeap.openFile_cases searched
  have found : hvfsFiles.openFile (heap, machine) path =
    ((heap.openFile machine.memory path).1, (heap.openFile machine.memory path).2, machine) := rfl
  generalize heap.openFile machine.memory path = result at cases found
  obtain ⟨fd, opened⟩ := result
  rcases cases with ⟨unopened, null, same⟩ | ⟨isOpen, looking, opens⟩
  · refine Or.inl ⟨unopened, opened, ?_, same⟩
    simp only [fetchFile, found, if_pos null]
  · have nonnull : fd ≠ 0#64 := opens.nonnull
    by_cases refused : hvfsFiles.permissionCheck (opened, machine) fd = false
    · refine Or.inr (Or.inl ⟨isOpen, fd, looking, opened, ?_, opens⟩)
      simp only [fetchFile, found, if_neg nonnull, if_pos refused]
    · let size := hvfsFiles.vnodeSize (opened.kmalloc.2, machine) fd
      obtain ⟨sameHeap, sameStack⟩ :=
        @hvfsFiles_read opened.kmalloc.2 machine fd opened.kmalloc.1 size
      refine Or.inr (Or.inr ⟨isOpen, fd, opened.kmalloc.1, opened.kmalloc.2,
        (hvfsFiles.read (opened.kmalloc.2, machine) fd opened.kmalloc.1 size).2, ?_,
        ⟨looking, opened, opens, rfl⟩, sameStack⟩)
      simp only [fetchFile, found, if_neg nonnull, if_neg refused]
      exact congrArg (Prod.mk _) (Prod.ext sameHeap rfl)

/-! The record -/

/-- Wherever `process_create` puts the record, it has the next pid. -/
theorem processCreate_returns {Heap : Type} {system : System Heap} {entry pagemap : U64}
    (usable : system.machine.stack.Usable) (mapped : DirectlyMapped hhdmOffset system.machine)
    (offset : hhdmOffset ≠ 0#64) (direct : hhdmOffset.toNat + 4096 ≤ 2 ^ 64) :
    ∃ proc next, processCreate hhdmOffset system entry pagemap name = (proc, next) ∧
      Memory.load64 next.machine.memory (processPid proc) = system.pidCounter ∧
      next.scheduler = system.scheduler ∧ next.heap = system.heap := by
  have pageZero : Frame.pointer hhdmOffset 0#40 = hhdmOffset := by
    have zero : Frame.address 0#40 = 0#64 := rfl
    rw [Frame.pointer, higherHalf, zero]
    bv_omega
  have lastByte : hhdmOffset + 4095#64 ≠ 0#64 := by
    bv_omega
  by_cases enough : 2 ≤ system.machine.free.length
  · obtain ⟨record, stack, next, result, -, -, created, same⟩ :=
      processCreate_spec system entry pagemap name usable enough mapped
    refine ⟨_, _, result, created.pid, ?_, ?_⟩
    · rw [same]
    · rw [same]
  · -- the record takes the last frame, if there is one
    obtain ⟨record, machine, first, nonnull, empty⟩ : ∃ (record : Frame) (machine : Machine),
        pmmRequestPage hhdmOffset system.machine = (record.address, machine) ∧
        record.pointer hhdmOffset ≠ 0#64 ∧ machine.free = [] := by
      by_cases none : system.machine.free = []
      · exact ⟨0#40, system.machine, pmmRequestPage_empty none,
          fun null => offset (pageZero.symm.trans null), none⟩
      · obtain ⟨record, machine, first, nonzero, takes⟩ :=
          pmmRequestPage_takesFrame hhdmOffset usable none
        have free := takes.taken_free List.mem_cons_self
        have count := takes.length_free
        rw [List.length_singleton] at count
        exact ⟨record, machine, first, pointer_ne_zero nonzero (mapped record free),
          List.eq_nil_of_length_eq_zero (by omega)⟩
    have second : pmmRequestPage hhdmOffset
        { machine with
          memory := processHead machine.memory (record.pointer hhdmOffset) system.pidCounter
            entry } =
        (Frame.address 0#40,
          { machine with
            memory := processHead machine.memory (record.pointer hhdmOffset) system.pidCounter
              entry }) := pmmRequestPage_empty (by exact empty)
    have result := @processCreate_eq _ hhdmOffset system entry pagemap name record 0#40 _ _ first
      nonnull second (by rw [pageZero]; exact lastByte)
    exact ⟨_, _, result, (filledRecord_created (fun _ _ => rfl) rfl).pid, rfl, rfl⟩

/-! All or nothing -/

/-- A creation adds a process where it makes the table longer. -/
def AddsProcess (system next : System FileHeap) : Prop :=
  next.scheduler.processCount ≠ system.scheduler.processCount

/-- The process table, the current index, the free frames and the live blocks are as before. -/
structure Unaffected (system next : System FileHeap) : Prop where
  scheduler : next.scheduler = system.scheduler
  free : ∀ frame, frame ∈ next.machine.free ↔ frame ∈ system.machine.free
  live : next.heap.live = system.heap.live

/-- The creation returns 0 exactly if it adds no process, and has no effect then. -/
structure Atomic (system : System FileHeap) (returned : U64) (next : System FileHeap) : Prop where
  failure : ¬AddsProcess system next → returned = 0#64 ∧ Unaffected system next
  zero : returned = 0#64 → ¬AddsProcess system next

/-- There is an executable file, and the image in it can be loaded into a pagemap of
its own. -/
def Loads (hhdmOffset kernelPagemap : U64) (system : System FileHeap) (path : U64) : Prop :=
  ∃ fd data heap machine,
    fetchFile hvfsFiles (system.heap, system.machine) path = (some (fd, data), heap, machine) ∧
    ElfLoadable hhdmOffset (vmmNewPagemap hhdmOffset kernelPagemap machine).2 data
      (vmmNewPagemap hhdmOffset kernelPagemap machine).1

theorem Atomic.of_failure {machine : Machine}
    (free : machine.free = system.machine.free) (live : heap.live = system.heap.live) :
    Atomic system 0#64 { system with heap, machine } where
  failure := fun _ => ⟨rfl, rfl, fun frame => by rw [free], live⟩
  zero := fun _ adds => adds rfl

/-- Without a process there is nothing more in the heap. -/
theorem Atomic.live_eq {returned : U64} (atomic : Atomic system returned next)
    (table : next.scheduler = system.scheduler) : next.heap.live = system.heap.live := by
  have unchanged : ¬AddsProcess system next := fun adds => adds (by rw [table])
  exact (atomic.failure unchanged).2.live

/-- An image that cannot be loaded leaves the file open and the buffer allocated. -/
theorem FileHeap.Fetches.live_ne {fd data : U64} {after : FileHeap} {loaded : Machine}
    (fetches : heap.Fetches machine fd data after loaded)
    (honest : Honest 0#64 (fun _ => False) ∅ after.calls) : after.live ≠ heap.live := by
  obtain ⟨looking, opened, opens, calls⟩ := fetches.opens
  refine opens.live_ne calls (Serves.alloc (HeapOwner.data 0#64) data) ?_ honest
  rw [Function.update_of_ne (by simp), Function.update_self]

/-- The process table grows by the created process, and its pid is returned. -/
theorem creation_adds {fd data : U64} {after : FileHeap} {loaded : Machine}
    (room : ¬system.scheduler.processCount ≥ maxProcesses)
    (fetched : fetchFile hvfsFiles (system.heap, system.machine) path =
      (some (fd, data), after, loaded))
    (loads : (elfLoad hhdmOffset (vmmNewPagemap hhdmOffset kernelPagemap loaded).2 data
      (vmmNewPagemap hhdmOffset kernelPagemap loaded).1).1 ≠ 0#64)
    (usable : loaded.stack.Usable) (mapped : DirectlyMapped hhdmOffset loaded)
    (offset : hhdmOffset ≠ 0#64) (direct : hhdmOffset.toNat + 4096 ≤ 2 ^ 64) :
    (schedulerCreateElfProcess hvfsFiles hhdmOffset kernelPagemap system path name).1 =
        system.pidCounter ∧
      AddsProcess system
        (schedulerCreateElfProcess hvfsFiles hhdmOffset kernelPagemap system path name).2 := by
  have drawn := (Drawn.newPagemap hhdmOffset kernelPagemap loaded).trans
    (Drawn.load hhdmOffset (vmmNewPagemap hhdmOffset kernelPagemap loaded).2 data
      (vmmNewPagemap hhdmOffset kernelPagemap loaded).1)
  unfold schedulerCreateElfProcess
  simp only [if_neg room, fetched, if_neg loads]
  generalize elfLoad hhdmOffset (vmmNewPagemap hhdmOffset kernelPagemap loaded).2 data
    (vmmNewPagemap hhdmOffset kernelPagemap loaded).1 = result at drawn ⊢
  obtain ⟨entry, machine⟩ := result
  obtain ⟨proc, created, result, pid, table, -⟩ := @processCreate_returns hhdmOffset name _
    { system with heap := after, machine } entry
    (vmmNewPagemap hhdmOffset kernelPagemap loaded).1 (drawn.usable usable)
    (drawn.directlyMapped mapped) offset direct
  simp only [result]
  refine ⟨pid, ?_⟩
  unfold AddsProcess
  simp only [table, Scheduler.push]
  bv_omega

/-- `/a` at `0x1000` and `/x` at `0x2000` -/
def samplePaths : Memory := fun address =>
  if address = 0x1000#64 ∨ address = 0x2000#64 then charSlash
  else if address = 0x1001#64 then charLowerA
  else if address = 0x2001#64 then charLowerX
  else 0#8

def sampleReadable : VfsCall := .create 0x10#64 (some [charLowerA]) .file vnodePermsOwnerRead

/-- A tree with the file `/a` alone. -/
def sampleHeap : FileHeap where
  vfs := (sampleReadable.apply Hvfs.sampleTree).getD Hvfs.sampleTree
  files := fun _ => none
  last := 0#64
  calls := vfsInitCalls (Vfs.boot sampleSupply) ++
    vfsCreateCalls Hvfs.sampleTree 0x10#64 (some [charLowerA])

def sampleSystem : System FileHeap where
  heap := sampleHeap
  machine := { Machine.cleared 4 with memory := samplePaths }
  scheduler := { processes := fun _ => 0#64, processCount := 0#32, currentIndex := 0#32 }
  pidCounter := 1#64
  cr3 := 0#64

/-- Creation from the path at `path`. -/
def sampleCreation (path : U64) : U64 × System FileHeap :=
  schedulerCreateElfProcess hvfsFiles 0xFFFF800000000000#64 0xFFFF800000001000#64 sampleSystem
    path 0#64

theorem sampleHeap_calls : sampleHeap.calls =
    [.alloc 0x10#64, .alloc 0x20#64, .alloc 0x30#64, .alloc 0x40#64] := rfl

theorem sampleCreation_unopened : (sampleCreation 0x2000#64).2.heap.calls =
    sampleHeap.calls ++ [.alloc 0x50#64, .alloc 0x60#64, .free 0x60#64, .free 0x50#64] := rfl

end Nekonix
