import Mathlib.Data.List.Induction
import Mathlib.Logic.Function.Basic
import Nekonix.Sys.Syscall

/-!
# The device table of `proc/manager.c`

The table over its whole history: what `device_register` and `device_unregister` leave is
the map of the handles that are registered.
-/

namespace Nekonix

variable {Heap : Type}

/-- A `handle_t` with its `id`. -/
structure DeviceHandle (Heap : Type) where
  id : U32
  functions : Handle Heap

/-- `device_manager_init` -/
def deviceManagerInit : U32 → Option (Handle Heap) := fun _ => none

/-- `device_register`, where `none` is `NULL`: the returned value and the table. -/
def deviceRegister (devices : U32 → Option (Handle Heap)) (handle : Option (DeviceHandle Heap)) :
    U32 × (U32 → Option (Handle Heap)) :=
  match handle with
  | none => (BitVec.ofInt 32 (-1), devices)
  | some handle =>
      if handle.id ≥ maxDevices then
        (BitVec.ofInt 32 (-1), devices)
      else if (devices handle.id).isSome then
        (BitVec.ofInt 32 (-1), devices)
      else
        (0#32, Function.update devices handle.id (some handle.functions))

/-- `device_unregister`: the returned value and the table. -/
def deviceUnregister (devices : U32 → Option (Handle Heap)) (id : U32) :
    U32 × (U32 → Option (Handle Heap)) :=
  if id ≥ maxDevices then
    (BitVec.ofInt 32 (-1), devices)
  else if (devices id).isNone then
    (BitVec.ofInt 32 (-1), devices)
  else
    (0#32, Function.update devices id none)

inductive ManagerCall (Heap : Type) where
  | register (handle : Option (DeviceHandle Heap))
  | unregister (id : U32)

def ManagerCall.apply (devices : U32 → Option (Handle Heap)) :
    ManagerCall Heap → U32 → Option (Handle Heap)
  | .register handle => (deviceRegister devices handle).2
  | .unregister id => (deviceUnregister devices id).2

/-- The table after some calls. -/
def deviceTable (calls : List (ManagerCall Heap)) : U32 → Option (Handle Heap) :=
  calls.foldl ManagerCall.apply deviceManagerInit

/-- What a call does to the map of registered handles: an id up to 255 takes the first
handle that comes, and loses it when it is unregistered. -/
def ManagerCall.effect (registry : Nat → Option (Handle Heap)) :
    ManagerCall Heap → Nat → Option (Handle Heap)
  | .register none => registry
  | .register (some handle) =>
      if handle.id.toNat < 256 then
        Function.update registry handle.id.toNat
          ((registry handle.id.toNat).or (some handle.functions))
      else registry
  | .unregister id => Function.update registry id.toNat none

/-- The handle that is registered under a number after some calls. -/
def registered (calls : List (ManagerCall Heap)) : Nat → Option (Handle Heap) :=
  calls.foldl ManagerCall.effect fun _ => none

variable {calls : List (ManagerCall Heap)} {devices : U32 → Option (Handle Heap)}
  {registry : Nat → Option (Handle Heap)}

/-- The table represents the map: each id has its handle, and there are no ids from 256 on. -/
structure Represents (devices : U32 → Option (Handle Heap)) (registry : Nat → Option (Handle Heap)) :
    Prop where
  handle : ∀ id : U32, devices id = registry id.toNat
  bound : ∀ number, 256 ≤ number → registry number = none

theorem Represents.update (represents : Represents devices registry) {id : U32}
    (below : id.toNat < 256) (value : Option (Handle Heap)) :
    Represents (Function.update devices id value) (Function.update registry id.toNat value) := by
  constructor
  · intro other
    by_cases same : other = id
    · rw [same, Function.update_self, Function.update_self]
    · have different : other.toNat ≠ id.toNat := fun equal => same (BitVec.eq_of_toNat_eq equal)
      rw [Function.update_of_ne same, Function.update_of_ne different]
      exact represents.handle other
  · intro number outside
    rw [Function.update_of_ne (by omega)]
    exact represents.bound number outside

/-- Each call keeps the table what the map says. -/
theorem Represents.call (represents : Represents devices registry) (call : ManagerCall Heap) :
    Represents (call.apply devices) (call.effect registry) := by
  have bound : maxDevices.toNat = 256 := rfl
  cases call with
  | register handle =>
      cases handle with
      | none => exact represents
      | some handle =>
          simp only [ManagerCall.apply, deviceRegister, ManagerCall.effect]
          by_cases outside : handle.id ≥ maxDevices
          · have notBelow : ¬handle.id.toNat < 256 := by bv_omega
            rw [if_pos outside, if_neg notBelow]
            exact represents
          · have below : handle.id.toNat < 256 := by bv_omega
            rw [if_neg outside, if_pos below, ← represents.handle]
            cases taken : devices handle.id with
            | none => exact represents.update below _
            | some other =>
                have same := represents.update below (some other)
                rw [← taken, Function.update_eq_self, taken] at same
                exact same
  | unregister id =>
      simp only [ManagerCall.apply, deviceUnregister, ManagerCall.effect]
      by_cases outside : id ≥ maxDevices
      · have notBelow : 256 ≤ id.toNat := by bv_omega
        rw [if_pos outside, ← represents.bound _ notBelow, Function.update_eq_self]
        exact represents
      · have below : id.toNat < 256 := by bv_omega
        rw [if_neg outside]
        cases taken : devices id with
        | none =>
            have same := represents.update below none
            rw [← taken, Function.update_eq_self, taken] at same
            exact same
        | some other => exact represents.update below none

theorem deviceTable_represents (calls : List (ManagerCall Heap)) :
    Represents (deviceTable calls) (registered calls) := by
  induction calls using List.reverseRecOn with
  | nil => exact ⟨fun _ => rfl, fun _ _ => rfl⟩
  | append_singleton calls call inductionHypothesis =>
      simp only [deviceTable, registered, List.foldl_append, List.foldl_cons, List.foldl_nil]
      exact inductionHypothesis.call call

end Nekonix
