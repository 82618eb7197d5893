import Nekonix.Fs.Ramfs
import Nekonix.Dev.Hvfs.HeapCalls

/-!
# Blocks and archive data of the mounted file system

`ramfs_parse` leads the data of its files into the archive, which is no heap block.
`vfs_write` gives the data of any file that grows to `krealloc`.  As long as it does
so for no file of the archive, the heap gets its own blocks back and nothing else.
-/

namespace Nekonix

open HeapLedger Transition

/-- Where `ramfs_parse` finds the data of the files in an archive of `size` bytes. -/
def InArchive (data size ptr : U64) : Prop := ptr - (data + 512#64) < size

instance (data size : U64) : DecidablePred (InArchive data size) :=
  fun _ => inferInstanceAs (Decidable (_ < _))

variable {archive : U64 → Prop} [DecidablePred archive] {ramfs middle next : Ramfs}

/-! The mount -/

/-- The block that each owner holds while no file is open. -/
abbrev Ramfs.held (archive : U64 → Prop) [DecidablePred archive] (ramfs : Ramfs) :
    HeapOwner → U64 :=
  heldBlock archive ramfs.vfs.vnodes fun _ : U64 => (none : Option Hvfs.File)

/-- From one state of the mount to a later one. -/
def Ramfs.Proceeds (archive : U64 → Prop) [DecidablePred archive] (ramfs next : Ramfs) : Prop :=
  ∃ calls, next.calls = ramfs.calls ++ calls ∧
    Serves 0#64 archive (ramfs.held archive) calls (next.held archive)

namespace Ramfs.Proceeds

/-- A step without heap calls. -/
theorem of_held (calls : next.calls = ramfs.calls)
    (held : next.held archive = ramfs.held archive) : ramfs.Proceeds archive next := by
  refine ⟨[], by rw [calls, List.append_nil], ?_⟩
  rw [held]
  exact .refl

theorem refl (ramfs : Ramfs) : ramfs.Proceeds archive ramfs := of_held rfl rfl

theorem trans (first : ramfs.Proceeds archive middle) (second : middle.Proceeds archive next) :
    ramfs.Proceeds archive next := by
  obtain ⟨calls, log, serves⟩ := first
  obtain ⟨further, log', serves'⟩ := second
  exact ⟨calls ++ further, by rw [log', log, List.append_assoc], serves.trans serves'⟩

theorem strtok (ramfs : Ramfs) (str : U64) : ramfs.Proceeds archive (ramfs.strtok str).2 :=
  of_held rfl rfl

theorem create {parent made : U64} {name : Option (List U8)} {type : VnodeType}
    {perms error : U32} {vfs : Vfs}
    (result : vfsCreate ramfs.vfs parent name type perms = some (error, made, vfs)) :
    ramfs.Proceeds archive
      { ramfs with vfs, calls := ramfs.calls ++ vfsCreateCalls ramfs.vfs parent name } :=
  ⟨_, rfl, vfsCreate_serves result⟩

end Ramfs.Proceeds

/-- The loop over the components of a name. -/
theorem ramfsParseComponents_proceeds {isDirectory : Bool} {mode : U32} {fuel : Nat}
    {token parent : U64} {stop : Option ComponentsEnd}
    (result : ramfsParseComponents isDirectory mode fuel ramfs token parent = some (stop, next)) :
    ramfs.Proceeds archive next := by
  induction fuel generalizing ramfs token parent with
  | zero => cases result
  | succ fuel inductionHypothesis =>
      rw [ramfsParseComponents] at result
      by_cases ends : token = 0#64
      · rw [if_pos ends] at result
        cases result
        exact .refl _
      rw [if_neg ends] at result
      dsimp only at result
      rw [Option.bind_eq_bind, Option.bind_eq_some_iff] at result
      obtain ⟨subdir, -, result⟩ := result
      by_cases absent : subdir = 0#64
      · rw [if_pos absent] at result
        by_cases directory : isDirectory = true
        · rw [if_pos directory, Option.bind_eq_bind, Option.bind_eq_some_iff] at result
          obtain ⟨⟨error, made, vfs⟩, created, result⟩ := result
          have step := @Ramfs.Proceeds.create archive _ _ _ _ _ _ _ _ _ created
          dsimp only at result
          split_ifs at result with failed
          · cases result
            exact step
          · exact (step.trans (.strtok _ _)).trans (inductionHypothesis result)
        · rw [if_neg directory] at result
          cases result
          exact .refl _
      · rw [if_neg absent] at result
        exact (Ramfs.Proceeds.strtok _ _).trans (inductionHypothesis result)

/-- Making a file leads its data into the archive. -/
theorem ramfsMakeFile_proceeds {header : U64} {fileSize mode error : U32} {stop : ComponentsEnd}
    (inArchive : archive (header + ustarHeaderSize.setWidth 64))
    (result : ramfsMakeFile ramfs header fileSize mode stop = some (error, next)) :
    ramfs.Proceeds archive next := by
  unfold ramfsMakeFile at result
  have cut := @Ramfs.Proceeds.strtok archive _ ramfs stop.token
  dsimp only at result
  generalize (ramfs.strtok stop.token).2 = middle at cut result
  split_ifs at result with named
  · simp only [Option.bind_eq_bind] at result
    rw [Option.bind_eq_some_iff] at result
    obtain ⟨⟨code, made, vfs⟩, created, result⟩ := result
    have step := cut.trans (@Ramfs.Proceeds.create archive _ _ _ _ _ _ _ _ _ created)
    dsimp only at result
    split_ifs at result with failed
    · cases result
      exact step
    · rw [Option.bind_eq_some_iff] at result
      obtain ⟨vnode, live, result⟩ := result
      cases result
      obtain ⟨calls, log, serves⟩ := step
      refine ⟨calls, log, ?_⟩
      have filled := @heldBlock_refill _ archive _ vfs (fun _ : U64 => (none : Option Hvfs.File))
        made vnode { vnode with
          data := header + ustarHeaderSize.setWidth 64
          size := fileSize.setWidth 64 } live rfl
      dsimp only at filled
      rw [if_pos inArchive] at filled
      dsimp only [Ramfs.held] at serves ⊢
      rw [filled]
      exact serves.forget _
  · cases result
    exact cut

variable {data size : U64}

theorem inArchive_entry {offset : U64} (inside : offset < size) :
    InArchive data size (data + offset + ustarHeaderSize.setWidth 64) := by
  have same : data + offset + ustarHeaderSize.setWidth 64 - (data + 512#64) = offset := by
    have width : ustarHeaderSize.setWidth 64 = 512#64 := rfl
    rw [width]
    bv_omega
  unfold InArchive
  rwa [same]

/-- The loop over the entries of the archive. -/
theorem ramfsParseEntries_proceeds {parent : U64} {fuel : Nat} {offset : U64} {error : U32}
    (result : ramfsParseEntries data size parent fuel ramfs offset = some (error, next)) :
    ramfs.Proceeds (InArchive data size) next := by
  induction fuel generalizing ramfs offset with
  | zero => cases result
  | succ fuel inductionHypothesis =>
      rw [ramfsParseEntries] at result
      by_cases inside : offset < size
      · rw [if_pos inside] at result
        dsimp only at result
        generalize (if strncmp (cString ramfs.memory (data + offset)) dotSlash 2 = 0
          then data + offset + 2#64 else data + offset) = name at result
        split at result
        · cases result
          exact .refl _
        split at result
        · exact inductionHypothesis result
        rw [Option.bind_eq_bind, Option.bind_eq_some_iff] at result
        obtain ⟨⟨stop, middle⟩, parsed, result⟩ := result
        have step := (Ramfs.Proceeds.strtok _ _).trans
          (@ramfsParseComponents_proceeds (InArchive data size) _ _ _ _ _ _ _ _ _ parsed)
        cases stop with
        | none =>
            cases result
            exact step
        | some stop =>
            dsimp only at result
            split at result
            · exact step.trans (inductionHypothesis result)
            · rw [Option.bind_eq_bind, Option.bind_eq_some_iff] at result
              obtain ⟨⟨code, last⟩, made, result⟩ := result
              have filed := step.trans (ramfsMakeFile_proceeds (inArchive_entry inside) made)
              dsimp only at result
              split at result
              · cases result
                exact filed
              · exact filed.trans (inductionHypothesis result)
      · rw [if_neg inside] at result
        cases result
        exact .refl _

theorem ramfsInit_proceeds {error : U32}
    (result : ramfsInit data size ramfs = some (error, next)) :
    ramfs.Proceeds (InArchive data size) next := by
  unfold ramfsInit at result
  split_ifs at result with nothing
  · cases result
    exact .refl _
  · simp only [Option.bind_eq_bind] at result
    rw [Option.bind_eq_some_iff] at result
    obtain ⟨vnode, live, result⟩ := result
    unfold ramfsParse at result
    rw [if_neg nothing] at result
    have parsed := ramfsParseEntries_proceeds result
    refine Ramfs.Proceeds.trans (Ramfs.Proceeds.of_held ?_ ?_) parsed
    · rfl
    · exact heldBlock_relink live rfl rfl

/-! Runs -/

/-- The state after `vfs_init`, before the mount. -/
def Ramfs.boot (supply : List U64) (memory : Memory) (last : U64) : Ramfs where
  vfs := (vfsInit (Vfs.boot supply)).2
  memory := memory
  last := last
  calls := vfsInitCalls (Vfs.boot supply)

/-- The file system with all heap calls since `vfs_init`. -/
structure Traced where
  state : Hvfs.State
  calls : List HeapCall

def Ramfs.mounted (ramfs : Ramfs) : Traced where
  state := Hvfs.State.unopened ramfs.vfs ramfs.memory
  calls := ramfs.calls

namespace Traced

/-- A call with valid handles and live nodes, and the heap calls it makes. -/
structure Step (traced : Traced) (call : Hvfs.Call) (next : Traced) : Prop where
  step : Hvfs.Step traced.state call next.state
  calls : next.calls = traced.calls ++ call.heapCalls traced.state

/-- A step that makes no file of the archive grow. -/
def SparingStep (data size : U64) (traced : Traced) (call : Hvfs.Call) (next : Traced) : Prop :=
  Step traced call next ∧ ¬call.GrowsArchive (InArchive data size) traced.state

/-- The owners hold the blocks that the heap calls so far have left. -/
def Accounted (archive : U64 → Prop) [DecidablePred archive] (traced : Traced) : Prop :=
  Serves 0#64 archive (fun _ : HeapOwner => 0#64) traced.calls (traced.state.held archive)

variable {traced after : Traced} {call : Hvfs.Call}

theorem Accounted.step (accounted : traced.Accounted archive) (step : Step traced call after)
    (spares : ¬call.GrowsArchive archive traced.state) : after.Accounted archive := by
  unfold Accounted
  rw [step.calls]
  exact accounted.trans (call.serves step.step.1 step.step.2 spares)

/-- What an accounted run gave to the heap was the heap's. -/
theorem Accounted.valid (accounted : traced.Accounted archive)
    (honest : Honest 0#64 archive ∅ traced.calls) : Valid 0#64 ∅ traced.calls :=
  (accounted ∅ ⟨fun _ nonnull => absurd rfl nonnull, fun _ _ nonnull => absurd rfl nonnull⟩
    honest).1

/-- A file of the archive that grows is given to the heap, which never gave it out. -/
theorem Step.invalid {excluded : U64 → Prop} (step : Step traced call after)
    (honest : Honest 0#64 excluded ∅ traced.calls)
    (grows : call.GrowsArchive excluded traced.state) :
    ¬Valid 0#64 ∅ after.calls := by
  rw [step.calls]
  intro both
  have valid := (along_append.mp both).2
  have outside := honest.notExcluded (fun block membership => membership.elim)
  have given : ∃ node offset size buffer krealloc memory,
      GrowsArchive excluded traced.state.vfs node offset size buffer ∧
      call.heapCalls traced.state =
        vfsWriteCalls krealloc traced.state.vfs memory node offset size buffer := by
    cases call with
    | write krealloc file buffer size =>
        obtain ⟨handle, isOpen, writes, grows⟩ := grows
        refine ⟨_, _, _, _, krealloc, traced.state.memory, grows, ?_⟩
        rw [Hvfs.Call.heapCalls, isOpen, Hvfs.writeCalls_writes writes]
    | fill krealloc node offset size buffer => exact ⟨_, _, _, _, _, _, grows, rfl⟩
    | openFile last path mode => cases grows
    | read file buffer size => cases grows
    | chmod file permissions => cases grows
    | close file => cases grows
    | tree call => cases grows
  obtain ⟨node, offset, size, buffer, krealloc, memory, grown, calls⟩ := given
  obtain ⟨nonnull, buffered, vnode, live, bigger, lent, dataNonnull⟩ := grown
  have refused : ¬(node = 0#64 ∨ buffer = 0#64) := not_or.mpr ⟨nonnull, buffered⟩
  rw [calls, vfsWriteCalls, if_neg refused, live] at valid
  dsimp only at valid
  rw [if_pos bigger] at valid
  rcases valid.1 with isNull | isLive
  · exact dataNonnull isNull
  · exact outside vnode.data isLive lent

end Traced

/-- The mount leaves every block with its owner. -/
theorem ramfsInit_accounted {supply : List U64} {memory : Memory} {last : U64} {error : U32}
    (mount : ramfsInit data size (Ramfs.boot supply memory last) = some (error, ramfs)) :
    ramfs.mounted.Accounted (InArchive data size) := by
  obtain ⟨calls, log, serves⟩ := ramfsInit_proceeds mount
  have booted := @vfsInit_serves _ (InArchive data size) _
    (fun _ : U64 => (none : Option Hvfs.File)) (Vfs.boot supply)
  have nothing : heldBlock (InArchive data size) (Vfs.boot supply).vnodes
      (fun _ : U64 => (none : Option Hvfs.File)) = fun _ => 0#64 := by
    funext owner
    cases owner <;> rfl
  rw [nothing] at booted
  have both := booted.trans serves
  unfold Traced.Accounted Ramfs.mounted
  dsimp only
  rw [log]
  exact both

/-- In every run after a mount in which no file of the archive grows, and whatever an
honest heap gives out, all that the heap gets back is `NULL` or a live block of its own.
A write that makes a file of the archive grow ends that. -/
theorem heap_gets_its_blocks {supply : List U64} {memory : Memory} {last : U64} {error : U32}
    {calls : List Hvfs.Call} {final : Traced}
    (mount : ramfsInit data size (Ramfs.boot supply memory last) = some (error, ramfs))
    (run : Run (Traced.SparingStep data size) ramfs.mounted calls final)
    (honest : Honest 0#64 (InArchive data size) ∅ final.calls) :
    Valid 0#64 ∅ final.calls ∧
      ∀ call next, Traced.Step final call next →
        call.GrowsArchive (InArchive data size) final.state → ¬Valid 0#64 ∅ next.calls := by
  have accounted := run.invariant (Traced.Accounted (InArchive data size))
    (ramfsInit_accounted mount) fun _ _ _ accounted step => accounted.step step.1 step.2
  exact ⟨accounted.valid honest, fun call next step grows => step.invalid honest grows⟩

/-! An archive with one empty file -/

def sampleArchive : Memory := fun address => if address = 0x100000#64 then charLowerA else 0#8

def sampleMount : Option (U32 × Ramfs) :=
  ramfsInit 0x100000#64 512#64 (Ramfs.boot sampleSupply sampleArchive 0#64)

def sampleMounted : Ramfs :=
  (sampleMount.map Prod.snd).getD (Ramfs.boot sampleSupply sampleArchive 0#64)

theorem sampleMount_mounts : sampleMount = some (0#32, sampleMounted) := rfl

def sampleNewFile : Hvfs.Call := .tree (.create 0x10#64 (some [charLowerX]) .file rootPermissions)

/-- One byte for `node`, with a block to come at `0x70`. -/
def sampleFill (node : U64) : Hvfs.Call :=
  .fill (fun memory _ _ => (0x70#64, memory)) node 0#32 1#32 0x200000#64

/-- The traced state after a call that returns. -/
def Traced.perform (traced : Traced) (call : Hvfs.Call) : Traced where
  state := (call.apply traced.state).getD traced.state
  calls := traced.calls ++ call.heapCalls traced.state

theorem sampleNewFile_step : Traced.SparingStep 0x100000#64 512#64 sampleMounted.mounted sampleNewFile
    (sampleMounted.mounted.perform sampleNewFile) := by
  refine ⟨⟨⟨⟨⟨_, rfl⟩, ?_⟩, rfl⟩, rfl⟩, id⟩
  intro block isHead
  cases isHead
  rfl

theorem sampleFill_step : Traced.SparingStep 0x100000#64 512#64
    (sampleMounted.mounted.perform sampleNewFile) (sampleFill 0x50#64)
    ((sampleMounted.mounted.perform sampleNewFile).perform (sampleFill 0x50#64)) := by
  refine ⟨⟨⟨⟨_, rfl⟩, rfl⟩, rfl⟩, ?_⟩
  rintro ⟨-, -, vnode, live, -, lent, -⟩
  cases live
  revert lent
  decide

theorem heap_gets_its_blocks_filled :
    Valid 0#64 ∅ ((sampleMounted.mounted.perform sampleNewFile).perform (sampleFill 0x50#64)).calls := by
  refine (heap_gets_its_blocks sampleMount_mounts
    ((Run.single sampleNewFile_step).snoc sampleFill_step) ?_).1
  have log : ((sampleMounted.mounted.perform sampleNewFile).perform (sampleFill 0x50#64)).calls =
      [.alloc 0x10#64, .alloc 0x20#64, .alloc 0x30#64, .alloc 0x40#64, .alloc 0x50#64,
        .alloc 0x60#64, .realloc 0#64 0x70#64] := rfl
  rw [log]
  simp [Honest, Along, Call.Honest, Call.after, InArchive]

/-- A byte written to the empty file of the archive gives the heap a block of the
archive. -/
theorem heap_gets_archive : ¬∀ (supply : List U64) (memory : Memory) (last data size : U64)
    (error : U32) (ramfs : Ramfs) (calls : List Hvfs.Call) (final : Traced),
    ramfsInit data size (Ramfs.boot supply memory last) = some (error, ramfs) →
    Run Traced.Step ramfs.mounted calls final →
    Honest 0#64 (InArchive data size) ∅ final.calls → Valid 0#64 ∅ final.calls := by
  intro always
  have step : Traced.Step sampleMounted.mounted (sampleFill 0x30#64)
      (sampleMounted.mounted.perform (sampleFill 0x30#64)) := ⟨⟨⟨_, rfl⟩, rfl⟩, rfl⟩
  have log : (sampleMounted.mounted.perform (sampleFill 0x30#64)).calls =
      [.alloc 0x10#64, .alloc 0x20#64, .alloc 0x30#64, .alloc 0x40#64,
        .realloc 0x100200#64 0x70#64] := rfl
  have valid := always _ _ _ _ _ _ _ _ _ sampleMount_mounts (Run.single step) (by
    rw [log]
    simp [Honest, Along, Call.Honest, Call.after, InArchive])
  rw [log] at valid
  simp [Valid, Along, Call.Valid, Call.after] at valid

end Nekonix
