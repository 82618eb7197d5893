import Nekonix.Mm.Vmm.KernelTables
import Nekonix.Proc.Scheduler

/-!
# Process records

What the scheduler reads in a `process_t`, and what its writes to a record and
to the interrupt frame change of it.
-/

namespace Nekonix

open FlatMemory

/-- The saved registers of an `int_frame_t`, byte by byte. -/
abbrev Context := Fin intFrameSize → U8

def readContext (memory : Memory) (address : U64) : Context :=
  fun position => memory (address + BitVec.ofNat 64 position)

/-- The interrupt stub has saved the registers at `frame`. -/
def writeContext (memory : Memory) (frame : U64) (context : Context) : Memory :=
  fun address =>
    if inside : InRange frame intFrameSize address then context ⟨_, inside⟩ else memory address

/-- The fields of a `process_t`. -/
structure Process where
  pid : U64
  state : U32
  pagemap : U64
  ctx : Context
  name : U64

def readProcess (memory : Memory) (proc : U64) : Process where
  pid := Memory.load64 memory (processPid proc)
  state := Memory.load32 memory (processState proc)
  pagemap := Memory.load64 memory (processPagemap proc)
  ctx := readContext memory (processCtx proc)
  name := Memory.load64 memory (processName proc)

/-- `sizeof(process_t)` -/
def processSize : Nat := 232

variable {memory other : Memory} {proc frame : U64} {context : Context}

theorem readContext_writeContext (memory : Memory) (frame : U64) (context : Context) :
    readContext (writeContext memory frame context) frame = context := by
  funext position
  have bound := position.isLt
  unfold intFrameSize at bound
  have distance : (frame + BitVec.ofNat 64 position - frame).toNat = position :=
    offset_toNat frame (by omega)
  have inside : InRange frame intFrameSize (frame + BitVec.ofNat 64 position) :=
    inRange_offset frame (by omega) position.isLt
  unfold readContext writeContext
  rw [dif_pos inside]
  congr 1
  exact Fin.ext distance

theorem writeContext_outside {address : U64} (outside : ¬InRange frame intFrameSize address) :
    writeContext memory frame context address = memory address :=
  dif_neg outside

theorem load_of_same {base : U64} {size : Nat} (small : size ≤ 2 ^ 64)
    (same : ∀ address, InRange base size address → other address = memory address) :
    load other size base = load memory size base := by
  apply load_congr
  intro position below
  exact same _ (inRange_offset base (by omega) below)

theorem readContext_of_same {base : U64}
    (same : ∀ address, InRange base intFrameSize address → other address = memory address) :
    readContext other base = readContext memory base := by
  funext position
  have bound := position.isLt
  unfold intFrameSize at bound
  exact same _ (inRange_offset base (by omega) position.isLt)

/-- The bytes of the record outside its `ctx` decide the other fields. -/
theorem readProcess_of_sameBut_ctx
    (same : ∀ address, InRange proc processSize address →
      ¬InRange (processCtx proc) intFrameSize address → other address = memory address) :
    readProcess other proc =
      { readProcess memory proc with ctx := readContext other (processCtx proc) } := by
  have pid : load other 8 (processPid proc) = load memory 8 (processPid proc) := by
    apply load_of_same (by decide)
    intro address inField
    unfold InRange processPid processCtx processSize intFrameSize at *
    exact same address (by bv_omega) (by bv_omega)
  have state : load other 4 (processState proc) = load memory 4 (processState proc) := by
    apply load_of_same (by decide)
    intro address inField
    unfold InRange processState processCtx processSize intFrameSize at *
    exact same address (by bv_omega) (by bv_omega)
  have pagemap : load other 8 (processPagemap proc) = load memory 8 (processPagemap proc) := by
    apply load_of_same (by decide)
    intro address inField
    unfold InRange processPagemap processCtx processSize intFrameSize at *
    exact same address (by bv_omega) (by bv_omega)
  have name : load other 8 (processName proc) = load memory 8 (processName proc) := by
    apply load_of_same (by decide)
    intro address inField
    unfold InRange processName processCtx processSize intFrameSize at *
    exact same address (by bv_omega) (by bv_omega)
  simp only [readProcess, Memory.load64, Memory.load32, pid, state, pagemap, name]

theorem processCtx_inRecord {address : U64}
    (inside : InRange (processCtx proc) intFrameSize address) : InRange proc processSize address := by
  unfold InRange processCtx intFrameSize processSize at *
  bv_omega

theorem processState_inRecord {address : U64} (inside : InRange (processState proc) 4 address) :
    InRange proc processSize address := by
  unfold InRange processState processSize at *
  bv_omega

theorem processPid_inRecord (proc : U64) : InRange proc processSize (processPid proc) := by
  unfold InRange processPid
  rw [BitVec.sub_self]
  decide

theorem readProcess_congr
    (same : ∀ address, InRange proc processSize address → other address = memory address) :
    readProcess other proc = readProcess memory proc := by
  rw [readProcess_of_sameBut_ctx fun address inside _ => same address inside,
    readContext_of_same fun address inside => same address (processCtx_inRecord inside)]
  rfl

/-! Writes to a record -/

/-- The interrupt frame and the record share no byte. -/
def FrameApart (frame proc : U64) : Prop :=
  Separate frame intFrameSize proc processSize

/-- A copy of saved registers. -/
theorem readContext_memcpy {dest src : U64} (separate : Separate src intFrameSize dest intFrameSize) :
    readContext (memcpy memory dest src intFrameSize) dest = readContext memory src := by
  have apart : ∀ offset < intFrameSize,
      ¬InRange dest intFrameSize (src + BitVec.ofNat 64 offset) := by
    intro offset below
    unfold intFrameSize at below
    exact separate _ (inRange_offset src (by omega) below)
  funext position
  have bound := position.isLt
  unfold intFrameSize at bound
  have inside : InRange dest intFrameSize (dest + BitVec.ofNat 64 position) :=
    inRange_offset _ (by omega) position.isLt
  have distance : dest + BitVec.ofNat 64 position - dest = BitVec.ofNat 64 position := by
    rw [BitVec.add_comm, BitVec.add_sub_cancel]
  unfold readContext
  rw [memcpy_eq_copy (by decide) (fun _ _ => rfl) apart, copy_inside inside, distance]

/-- Saving the interrupt frame in a record. -/
theorem readProcess_saved (apart : FrameApart frame proc) :
    readProcess (memcpy memory (processCtx proc) frame intFrameSize) proc =
      { readProcess memory proc with ctx := readContext memory frame } := by
  have separate : Separate frame intFrameSize (processCtx proc) intFrameSize :=
    fun address inFrame inCtx => apart address inFrame (processCtx_inRecord inCtx)
  rw [readProcess_of_sameBut_ctx fun address _ outside => memcpy_outside (by decide) outside,
    readContext_memcpy separate]

theorem readProcess_setState (memory : Memory) (proc : U64) (code : U32) :
    readProcess (Memory.store32 memory (processState proc) code) proc =
      { readProcess memory proc with state := code } := by
  have pid : load (Memory.store32 memory (processState proc) code) 8 (processPid proc) =
      load memory 8 (processPid proc) := by
    apply load_store_separate _ (by decide)
    intro address inField
    unfold InRange processPid processState at *
    bv_omega
  have pagemap : load (Memory.store32 memory (processState proc) code) 8 (processPagemap proc) =
      load memory 8 (processPagemap proc) := by
    apply load_store_separate _ (by decide)
    intro address inField
    unfold InRange processPagemap processState at *
    bv_omega
  have name : load (Memory.store32 memory (processState proc) code) 8 (processName proc) =
      load memory 8 (processName proc) := by
    apply load_store_separate _ (by decide)
    intro address inField
    unfold InRange processName processState at *
    bv_omega
  have ctx : readContext (Memory.store32 memory (processState proc) code) (processCtx proc) =
      readContext memory (processCtx proc) := by
    apply readContext_of_same
    intro address inCtx
    apply store_outside
    unfold InRange processState processCtx intFrameSize at *
    bv_omega
  have state : Memory.load32 (Memory.store32 memory (processState proc) code)
      (processState proc) = code :=
    @load_store_same memory 4 (processState proc) code (by decide)
  simp only [readProcess, Memory.load64, pid, pagemap, name, ctx, state]

/-- Loading the interrupt frame from a record. -/
theorem readContext_loaded (memory : Memory) (apart : FrameApart frame proc) :
    readContext (memcpy memory frame (processCtx proc) intFrameSize) frame =
      (readProcess memory proc).ctx :=
  readContext_memcpy fun address inCtx inFrame =>
    apart address inFrame (processCtx_inRecord inCtx)

/-! The fields of a new record -/

theorem separate_of_distance {base other : U64} {size otherSize : Nat}
    (after : size ≤ (other - base).toNat) (fits : (other - base).toNat + otherSize ≤ 2 ^ 64) :
    Separate base size other otherSize := by
  intro address inBase inOther
  unfold InRange at *
  bv_omega

theorem processHead_outside {pid entry address : U64}
    (outside : ¬InRange proc processSize address) :
    processHead memory proc pid entry address = memory address := by
  unfold processHead
  have offPid : ¬InRange (processPid proc) 8 address := by
    unfold InRange processPid processSize at *
    bv_omega
  have offRip : ¬InRange (intFrameRip (processCtx proc)) 8 address := by
    unfold InRange intFrameRip processCtx processSize at *
    bv_omega
  rw [Memory.store64, store_outside offRip, Memory.store32,
    store_outside fun inState => outside (processState_inRecord inState), Memory.store64,
    store_outside offPid]

/-- What `process_create` sets first. -/
theorem processHead_fields (memory : Memory) (proc pid entry : U64) :
    Memory.load64 (processHead memory proc pid entry) (processPid proc) = pid ∧
      Memory.load32 (processHead memory proc pid entry) (processState proc) =
        ProcessState.new.code := by
  have pidRip : Separate (processPid proc) 8 (intFrameRip (processCtx proc)) 8 := by
    apply separate_of_distance <;> unfold processPid intFrameRip processCtx <;> bv_omega
  have pidState : Separate (processPid proc) 8 (processState proc) 4 := by
    apply separate_of_distance <;> unfold processPid processState <;> bv_omega
  have stateRip : Separate (processState proc) 4 (intFrameRip (processCtx proc)) 8 := by
    apply separate_of_distance <;> unfold processState intFrameRip processCtx <;> bv_omega
  unfold processHead
  constructor
  · rw [Memory.load64_store64_separate pidRip]
    have kept := @load_store_separate (Memory.store64 memory (processPid proc) pid) 8 4 _ _
      ProcessState.new.code pidState (by decide)
    exact kept.trans (Memory.load64_store64_same _ _ _)
  · have kept := @load_store_separate (Memory.store32 (Memory.store64 memory (processPid proc) pid)
      (processState proc) ProcessState.new.code) 4 8 _ _ entry stateRip (by decide)
    exact kept.trans (load_store_same _ _ _ (by decide))

/-- The part of the record that is set after `pid` and `state`. -/
theorem processRest_outside {pagemap name address : U64}
    (outside : ¬InRange (processPagemap proc) 216 address) :
    processRest memory proc pagemap name address = memory address := by
  have off : ∀ field, (field - processPagemap proc).toNat + 8 ≤ 216 →
      ¬InRange field 8 address := by
    intro field inPart inField
    apply outside
    unfold InRange at *
    bv_omega
  have offPagemap := off (processPagemap proc) (by bv_omega)
  have offName : ¬InRange (processName proc) 8 address := by
    apply off
    unfold processName processPagemap
    bv_omega
  have offCs : ¬InRange (intFrameCs (processCtx proc)) 8 address := by
    apply off
    unfold intFrameCs processCtx processPagemap
    bv_omega
  have offSs : ¬InRange (intFrameSs (processCtx proc)) 8 address := by
    apply off
    unfold intFrameSs processCtx processPagemap
    bv_omega
  have offRflags : ¬InRange (intFrameRflags (processCtx proc)) 8 address := by
    apply off
    unfold intFrameRflags processCtx processPagemap
    bv_omega
  simp only [processRest, Memory.store64, store_outside offName, store_outside offPagemap,
    store_outside offRflags, store_outside offSs, store_outside offCs]

/-- What `process_create` sets last. -/
theorem processRest_fields (memory : Memory) (proc pagemap name : U64) :
    Memory.load64 (processRest memory proc pagemap name) (processPagemap proc) = pagemap ∧
      Memory.load64 (processRest memory proc pagemap name) (processName proc) = name := by
  have separate : Separate (processPagemap proc) 8 (processName proc) 8 := by
    apply separate_of_distance <;> unfold processPagemap processName <;> bv_omega
  unfold processRest
  refine ⟨?_, Memory.load64_store64_same _ _ _⟩
  rw [Memory.load64_store64_separate separate]
  exact Memory.load64_store64_same _ _ _

theorem processRest_rsp (memory : Memory) (proc pagemap name : U64) :
    Memory.load64 (processRest memory proc pagemap name) (intFrameRsp (processCtx proc)) =
      Memory.load64 memory (intFrameRsp (processCtx proc)) := by
  have separate : ∀ field, 8 ≤ (field - intFrameRsp (processCtx proc)).toNat →
      (field - intFrameRsp (processCtx proc)).toNat + 8 ≤ 2 ^ 64 →
      Separate (intFrameRsp (processCtx proc)) 8 field 8 :=
    fun _ after fits => separate_of_distance after fits
  have offCs := separate (intFrameCs (processCtx proc))
    (by unfold intFrameCs intFrameRsp; bv_omega) (by unfold intFrameCs intFrameRsp; bv_omega)
  have offSs := separate (intFrameSs (processCtx proc))
    (by unfold intFrameSs intFrameRsp; bv_omega) (by unfold intFrameSs intFrameRsp; bv_omega)
  have offRflags := separate (intFrameRflags (processCtx proc))
    (by unfold intFrameRflags intFrameRsp; bv_omega)
    (by unfold intFrameRflags intFrameRsp; bv_omega)
  have offPagemap := separate (processPagemap proc)
    (by unfold processPagemap intFrameRsp processCtx; bv_omega)
    (by unfold processPagemap intFrameRsp processCtx; bv_omega)
  have offName := separate (processName proc)
    (by unfold processName intFrameRsp processCtx; bv_omega)
    (by unfold processName intFrameRsp processCtx; bv_omega)
  unfold processRest
  rw [Memory.load64_store64_separate offName, Memory.load64_store64_separate offPagemap,
    Memory.load64_store64_separate offRflags, Memory.load64_store64_separate offSs,
    Memory.load64_store64_separate offCs]

theorem afterState_inRecord {address : U64} (inside : InRange (processPagemap proc) 216 address) :
    InRange proc processSize address := by
  unfold InRange processPagemap processSize at *
  bv_omega

/-- `pid` and `state` depend on the first bytes only. -/
theorem pid_state_of_same
    (same : ∀ address, InRange proc 16 address → other address = memory address) :
    Memory.load64 other (processPid proc) = Memory.load64 memory (processPid proc) ∧
      Memory.load32 other (processState proc) = Memory.load32 memory (processState proc) := by
  refine ⟨load_of_same (by decide) ?_, load_of_same (by decide) ?_⟩
  · intro address inField
    exact same address (inField.mono (by decide))
  · intro address inField
    apply same
    unfold InRange processState at *
    bv_omega

end Nekonix
