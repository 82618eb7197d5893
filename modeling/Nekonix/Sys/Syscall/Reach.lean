import Nekonix.Proc.Manager
import Nekonix.Sys.Idt.Arguments

/-!
# The devices that system calls reach

`syscall_handler` hands the 64-bit `rdi` to `device_get`, which takes 32 bits of it, and
its `poll` calls what `device_get` returns without a look.  Every device but the named one
is replaced by a trip wire, and the heap tells whether it was touched.
-/

namespace Nekonix

open FlatMemory

variable {Heap : Type} {hhdmOffset frame : U64} {fuel : Nat} {system : System Heap}
  {wired next : System (Heap × Bool)} {calls : List (ManagerCall Heap)} {device : Handle Heap}
  {result : U64}

/-! Trip wires -/

/-- A device that leaves the wire alone. -/
def Handle.besideWire (device : Handle Heap) : Handle (Heap × Bool) where
  poll := fun system =>
    let (state, next) := device.poll (system.withHeap system.heap.1)
    (state, next.withHeap (next.heap, system.heap.2))
  read := fun system buffer =>
    let (result, next) := device.read (system.withHeap system.heap.1) buffer
    (result, next.withHeap (next.heap, system.heap.2))
  write := fun system data size =>
    let next := device.write (system.withHeap system.heap.1) data size
    next.withHeap (next.heap, system.heap.2)

/-- A wire in the place of a device: each of its functions only notes that it was called. -/
def Handle.wire : Handle (Heap × Bool) where
  poll := fun system => (deviceReady, system.withHeap (system.heap.1, true))
  read := fun system _ => (0#64, system.withHeap (system.heap.1, true))
  write := fun system _ _ => system.withHeap (system.heap.1, true)

/-- The table with a wire under each id but `named`. -/
def wiredTable (devices : U32 → Option (Handle Heap)) (named : U64) :
    U32 → Option (Handle (Heap × Bool)) :=
  fun id => (devices id).map fun device =>
    if id.toNat = named.toNat then device.besideWire else Handle.wire

/-- The number of a system call, and the id it names. -/
def syscallNumber (system : System Heap) (frame : U64) : U64 :=
  Memory.load64 system.machine.memory (intFrameRax frame)

def syscallDevice (system : System Heap) (frame : U64) : U64 :=
  Memory.load64 system.machine.memory (intFrameRdi frame)

/-- `write`, `read` and `poll` -/
def CallsDevice (number : U64) : Prop := number = 2#64 ∨ number = 3#64 ∨ number = 4#64

/-- No function of a device is called but of the one that is registered under the id in
`rdi`, and without one the call returns 0 at once. -/
structure ReachesNamed (calls : List (ManagerCall Heap)) (hhdmOffset : U64)
    (system : System Heap) (frame : U64) : Prop where
  untouched : ∀ fuel result next,
    syscallHandler (wiredTable (deviceTable calls) (syscallDevice system frame)) hhdmOffset fuel
      (system.withHeap (system.heap, false)) frame = some (result, next) → next.heap.2 = false
  unregistered : CallsDevice (syscallNumber system frame) →
    registered calls (syscallDevice system frame).toNat = none →
    ∀ fuel, syscallHandler (deviceTable calls) hhdmOffset fuel system frame = some (0#64, system)

/-! A wait leaves the wire alone -/

theorem waitForDevice_besideWire
    (waited : waitForDevice hhdmOffset device.besideWire frame fuel wired = some next) :
    next.heap.2 = wired.heap.2 := by
  induction fuel generalizing wired with
  | zero => cases waited
  | succ fuel inductionHypothesis =>
      rw [waitForDevice] at waited
      dsimp only at waited
      split_ifs at waited with busy
      · rw [inductionHypothesis waited, schedulerContextSwitch_heap]
        rfl
      · cases waited
        rfl

theorem schedulerTerminateCurrentProcess_heap (system : System Heap) :
    (schedulerTerminateCurrentProcess system).2.heap = system.heap := by
  unfold schedulerTerminateCurrentProcess
  dsimp only
  split_ifs <;> rfl

/-- What the handler does with the wires: it reaches one only through the device it takes. -/
theorem syscallHandler_untouched {devices : U32 → Option (Handle (Heap × Bool))}
    {system : System (Heap × Bool)}
    (taken : CallsDevice (syscallNumber system frame) → ∀ found,
      deviceGet devices ((syscallDevice system frame).setWidth 32) = some found →
      ∃ device : Handle Heap, found = device.besideWire)
    (handled : syscallHandler devices hhdmOffset fuel system frame = some (result, next)) :
    next.heap.2 = system.heap.2 := by
  unfold syscallHandler at handled
  dsimp only at handled
  split_ifs at handled with exits returns writes reads polls
  · cases handled
    rw [schedulerTerminateCurrentProcess_heap]
  · cases found : deviceGet devices ((syscallDevice system frame).setWidth 32) with
    | none =>
        unfold syscallDevice at found
        rw [found] at handled
        cases handled
        rfl
    | some other =>
        obtain ⟨device, rfl⟩ := taken (.inl writes) _ found
        unfold syscallDevice at found
        rw [found] at handled
        obtain ⟨waited, waits, isNext⟩ := Option.map_eq_some_iff.mp handled
        cases isNext
        have kept := waitForDevice_besideWire waits
        exact kept
  · cases found : deviceGet devices ((syscallDevice system frame).setWidth 32) with
    | none =>
        unfold syscallDevice at found
        rw [found] at handled
        cases handled
        rfl
    | some other =>
        obtain ⟨device, rfl⟩ := taken (.inr (.inl reads)) _ found
        unfold syscallDevice at found
        rw [found] at handled
        cases handled
        rfl
  · obtain ⟨other, found, isNext⟩ := Option.map_eq_some_iff.mp handled
    obtain ⟨device, rfl⟩ := taken (.inr (.inr polls)) _ found
    cases isNext
    rfl
  · cases handled
    rfl

/-- Without a device a write and a read return 0 at once. -/
theorem syscallHandler_without {devices : U32 → Option (Handle Heap)}
    (missing : deviceGet devices ((syscallDevice system frame).setWidth 32) = none)
    (number : syscallNumber system frame = 2#64 ∨ syscallNumber system frame = 3#64) :
    syscallHandler devices hhdmOffset fuel system frame = some (0#64, system) := by
  unfold syscallNumber syscallDevice at *
  unfold syscallHandler
  dsimp only
  rcases number with writes | reads
  · rw [writes, if_neg (by decide), if_pos rfl, missing]
  · rw [reads, if_neg (by decide), if_neg (by decide), if_pos rfl, missing]

/-- `poll` without a device goes through NULL. -/
theorem syscallHandler_null {devices : U32 → Option (Handle Heap)}
    (missing : deviceGet devices ((syscallDevice system frame).setWidth 32) = none)
    (polls : syscallNumber system frame = 4#64) :
    syscallHandler devices hhdmOffset fuel system frame = none := by
  unfold syscallNumber syscallDevice at *
  unfold syscallHandler
  dsimp only
  rw [polls, if_neg (by decide), if_neg (by decide), if_neg (by decide), if_pos rfl, missing]
  rfl

/-- A call that takes a wire touches it. -/
theorem syscallHandler_wire {devices : U32 → Option (Handle (Heap × Bool))}
    {system : System (Heap × Bool)} (number : CallsDevice (syscallNumber system frame))
    (taken : deviceGet devices ((syscallDevice system frame).setWidth 32) = some Handle.wire) :
    ∃ result next, syscallHandler devices hhdmOffset 1 system frame = some (result, next) ∧
      next.heap.2 = true := by
  unfold CallsDevice syscallNumber syscallDevice at *
  unfold syscallHandler
  dsimp only
  rcases number with writes | reads | polls
  · rw [writes, if_neg (by decide), if_pos rfl, taken]
    exact ⟨_, _, rfl, rfl⟩
  · rw [reads, if_neg (by decide), if_neg (by decide), if_pos rfl, taken]
    exact ⟨_, _, rfl, rfl⟩
  · rw [polls, if_neg (by decide), if_neg (by decide), if_neg (by decide), if_pos rfl, taken]
    exact ⟨_, _, rfl, rfl⟩

/-! What `device_get` takes -/

/-- `device_get` takes what is registered under the low 32 bits. -/
theorem deviceGet_table (calls : List (ManagerCall Heap)) (id : U32) :
    deviceGet (deviceTable calls) id = registered calls id.toNat := by
  have represents := deviceTable_represents calls
  have bound : maxDevices.toNat = 256 := rfl
  unfold deviceGet
  split_ifs with outside
  · exact (represents.bound _ (by bv_omega)).symm
  · exact represents.handle id

theorem deviceGet_wired (calls : List (ManagerCall Heap)) (named : U64) (id : U32) :
    deviceGet (wiredTable (deviceTable calls) named) id =
      (registered calls id.toNat).map fun device =>
        if id.toNat = named.toNat then device.besideWire else Handle.wire := by
  rw [← deviceGet_table]
  unfold deviceGet wiredTable
  split_ifs <;> rfl

/-- The low 32 bits of an id that is registered are the id. -/
theorem registered_low {id : U64} (named : (registered calls id.toNat).isSome) :
    (id.setWidth 32 : U32).toNat = id.toNat := by
  have below : id.toNat < 256 := by
    by_contra outside
    rw [(deviceTable_represents calls).bound _ (Nat.le_of_not_lt outside)] at named
    cases named
  rw [BitVec.toNat_setWidth]
  omega

/-- A system call reaches at most the device registered under `rdi` exactly if it calls no
device, or one is registered under it, or none is registered under its low 32 bits and the
call is not `poll`. -/
theorem syscall_reaches_named_iff (calls : List (ManagerCall Heap)) (hhdmOffset : U64)
    (system : System Heap) (frame : U64) :
    ReachesNamed calls hhdmOffset system frame ↔
      ¬CallsDevice (syscallNumber system frame) ∨
        (registered calls (syscallDevice system frame).toNat).isSome ∨
        registered calls ((syscallDevice system frame).setWidth 32 : U32).toNat = none ∧
          syscallNumber system frame ≠ 4#64 := by
  constructor
  · intro reaches
    by_contra fails
    rw [not_or, not_or, not_not, Option.not_isSome_iff_eq_none, not_and_not_right] at fails
    obtain ⟨number, unnamed, low⟩ := fails
    cases taken : registered calls ((syscallDevice system frame).setWidth 32 : U32).toNat with
    | none =>
        have missing := deviceGet_table calls ((syscallDevice system frame).setWidth 32)
        rw [taken] at missing
        have returns := reaches.unregistered number unnamed 0
        rw [syscallHandler_null missing (low taken)] at returns
        cases returns
    | some device =>
        have elsewhere : ((syscallDevice system frame).setWidth 32 : U32).toNat ≠
            (syscallDevice system frame).toNat := by
          intro same
          rw [same, unnamed] at taken
          cases taken
        have wire := deviceGet_wired calls (syscallDevice system frame)
          ((syscallDevice system frame).setWidth 32)
        rw [taken, Option.map_some, if_neg elsewhere] at wire
        obtain ⟨result, next, handled, touched⟩ := @syscallHandler_wire _ hhdmOffset frame _
          (system.withHeap (system.heap, false)) number wire
        rw [reaches.untouched _ _ _ handled] at touched
        cases touched
  · intro either
    refine ⟨?_, ?_⟩
    · intro fuel result next handled
      refine syscallHandler_untouched ?_ handled
      intro number found taken
      have wired := deviceGet_wired calls (syscallDevice system frame)
        ((syscallDevice system frame).setWidth 32)
      have taken' := wired.symm.trans taken
      obtain ⟨device, here, isFound⟩ := Option.map_eq_some_iff.mp taken'
      rcases either with noCall | named | ⟨missing, -⟩
      · exact absurd number noCall
      · rw [if_pos (registered_low named)] at isFound
        exact ⟨device, isFound.symm⟩
      · rw [missing] at here
        cases here
    · intro number unnamed fuel
      rcases either with noCall | named | ⟨missing, notPoll⟩
      · exact absurd number noCall
      · rw [unnamed] at named
        cases named
      · refine syscallHandler_without ((deviceGet_table calls _).trans missing) ?_
        rcases number with writes | reads | polls
        · exact .inl writes
        · exact .inr reads
        · exact absurd polls notPoll

/-- `poll` of an id that is not registered calls a function of NULL. -/
theorem poll_reaches_null : ¬∀ (calls : List (ManagerCall Unit)) (hhdmOffset : U64)
    (system : System Unit) (frame : U64), ReachesNamed calls hhdmOffset system frame := by
  intro always
  have number : syscallNumber polling 0x10000#64 = 4#64 := by decide
  have returns := (always [] 0#64 polling 0x10000#64).unregistered (.inr (.inr number)) rfl 0
  rw [syscallHandler_null rfl number] at returns
  cases returns

end Nekonix
