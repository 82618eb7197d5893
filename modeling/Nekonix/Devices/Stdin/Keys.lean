import Nekonix.Devices.Stdin

/-!
# The names of keys

What a call reads of `keymap` and which records a reader gets, for any bytes from the
port.  The 7-bit scancodes reach further than the array.
-/

namespace Nekonix

/-- The record with its past: the elements of `keymap` that the handler read, and the
records that the successful reads returned. -/
structure KeyTrace where
  key : Key
  accesses : List U8
  delivered : List Key

def KeyTrace.boot : KeyTrace := ⟨initialKey, [], []⟩

def KeyTrace.call (behind : U8 → Option String) (trace : KeyTrace) : StdinCall → KeyTrace
  | .interrupt data =>
      { trace with
        key := keyboardHandler behind data
        accesses := trace.accesses ++ [scancodeOf data] }
  | .poll => trace
  | .read buf =>
      let (count, buf, key) := stdinRead trace.key buf
      { trace with
        key
        delivered := if count = 0#64 then trace.delivered else trace.delivered ++ [buf] }

/-- The trace of some calls since boot. -/
def keyTrace (behind : U8 → Option String) (calls : List StdinCall) : KeyTrace :=
  calls.foldl (KeyTrace.call behind) KeyTrace.boot

/-- The record has the name that `keymap` has for its scancode. -/
def Key.Named (key : Key) : Prop :=
  key.scancode < keymapLength ∧ key.sym = keymapEntries.lookup key.scancode

/-- No access is outside `keymap`, and each returned record is named. -/
structure KeyTrace.Sound (trace : KeyTrace) : Prop where
  inside : ∀ code ∈ trace.accesses, code < keymapLength
  named : ∀ key ∈ trace.delivered, key.Named

/-- The byte of an interrupt has a scancode inside `keymap`. -/
def StdinCall.InRange : StdinCall → Prop
  | .interrupt data => scancodeOf data < keymapLength
  | .poll => True
  | .read _ => True

variable {behind : U8 → Option String} {calls : List StdinCall} {trace : KeyTrace}

theorem keyTrace_snoc (behind : U8 → Option String) (calls : List StdinCall) (call : StdinCall) :
    keyTrace behind (calls ++ [call]) = (keyTrace behind calls).call behind call := by
  unfold keyTrace
  rw [List.foldl_concat]

theorem keyboardHandler_named {data : U8} (inRange : (StdinCall.interrupt data).InRange) :
    (keyboardHandler behind data).Named :=
  ⟨inRange, if_pos inRange⟩

/-- The waiting record is named, if one waits. -/
def KeyTrace.Waiting (trace : KeyTrace) : Prop :=
  trace.key.sym.isSome → trace.key.Named

/-- A call whose byte is in range keeps a trace sound. -/
theorem KeyTrace.Sound.call (sound : trace.Sound) (waiting : trace.Waiting) {call : StdinCall}
    (inRange : call.InRange) :
    (trace.call behind call).Sound ∧ (trace.call behind call).Waiting := by
  cases call with
  | interrupt data =>
      refine ⟨⟨?_, sound.named⟩, fun _ => keyboardHandler_named inRange⟩
      simp only [KeyTrace.call, List.mem_append, List.mem_singleton]
      rintro code (earlier | rfl)
      · exact sound.inside code earlier
      · exact inRange
  | poll => exact ⟨sound, waiting⟩
  | read buf =>
      by_cases some : trace.key.sym.isSome
      · simp only [KeyTrace.call, stdinRead, if_pos some]
        refine ⟨⟨sound.inside, ?_⟩, by simp [Waiting]⟩
        simp only [BitVec.reduceEq, if_false, List.mem_append, List.mem_singleton]
        rintro key (earlier | rfl)
        · exact sound.named key earlier
        · exact waiting some
      · simp only [KeyTrace.call, stdinRead, if_neg some, if_true]
        exact ⟨sound, waiting⟩

/-- The accesses are those of the interrupts. -/
theorem mem_keyTrace_accesses {code : U8} :
    code ∈ (keyTrace behind calls).accesses ↔
      ∃ data, .interrupt data ∈ calls ∧ scancodeOf data = code := by
  induction calls using List.reverseRecOn with
  | nil => simp [keyTrace, KeyTrace.boot]
  | append_singleton calls call inductionHypothesis =>
      rw [keyTrace_snoc]
      cases call with
      | interrupt data =>
          simp only [KeyTrace.call, List.mem_append, List.mem_singleton, inductionHypothesis]
          constructor
          · rintro (⟨earlier, called, rfl⟩ | rfl)
            · exact ⟨earlier, .inl called, rfl⟩
            · exact ⟨data, .inr rfl, rfl⟩
          · rintro ⟨other, called | isLast, rfl⟩
            · exact .inl ⟨other, called, rfl⟩
            · cases isLast
              exact .inr rfl
      | poll => simpa [KeyTrace.call] using inductionHypothesis
      | read buf => simpa [KeyTrace.call] using inductionHypothesis

/-- Calls whose bytes are in range keep the trace sound. -/
theorem keyTrace_sound (inRange : ∀ call ∈ calls, call.InRange) :
    (keyTrace behind calls).Sound ∧ (keyTrace behind calls).Waiting := by
  induction calls using List.reverseRecOn with
  | nil => exact ⟨⟨nofun, nofun⟩, nofun⟩
  | append_singleton calls call inductionHypothesis =>
      rw [List.forall_mem_append, List.forall_mem_singleton] at inRange
      obtain ⟨sound, waiting⟩ := inductionHypothesis inRange.1
      rw [keyTrace_snoc]
      exact sound.call waiting inRange.2

/-- `keymap` is read inside only, and each key that is read has the name of its scancode,
exactly if the scancodes of all interrupts are below the length of `keymap`. -/
theorem keys_named_iff (behind : U8 → Option String) (calls : List StdinCall) :
    (keyTrace behind calls).Sound ↔
      ∀ data, .interrupt data ∈ calls → scancodeOf data < keymapLength := by
  constructor
  · intro sound data called
    exact sound.inside _ (mem_keyTrace_accesses.mpr ⟨data, called, rfl⟩)
  · intro inRange
    refine (keyTrace_sound ?_).1
    intro call called
    cases call with
    | interrupt data => exact inRange data called
    | poll => trivial
    | read buf => trivial

/-- The first byte of an extended scancode is read as a key behind the end of `keymap`. -/
theorem keymap_read_behind : ¬∀ (behind : U8 → Option String) (calls : List StdinCall),
    (keyTrace behind calls).Sound := by
  intro always
  have inside := (always (fun _ => none) [.interrupt 0xE0#8]).inside
  exact absurd (inside (scancodeOf 0xE0#8) (List.mem_singleton_self _)) (by decide)

end Nekonix
