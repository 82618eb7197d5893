import Nekonix.Library.Mailbox
import Nekonix.Library.Run
import Nekonix.Sys.Syscall

/-!
# The keyboard of `devices/stdin.c`

The interrupt handler leaves each key in the one record `key`, where a read takes
it out.  The record is a mailbox with one place: a key that is not read before the
next interrupt is overwritten.  Interrupts are masked in the kernel, so a call and
an interrupt do not overlap.
-/

namespace Nekonix

open Transition

/-- `key_t`; no `sym` is the NULL pointer. -/
structure Key where
  sym : Option String
  scancode : U8
  released : Bool
deriving DecidableEq

/-- `static key_t key = {0};` -/
def initialKey : Key := ⟨none, 0#8, false⟩

/-- The initializers of `keymap`. -/
def keymapEntries : List (U8 × String) :=
  [(0x01#8, "Esc"), (0x02#8, "1"), (0x03#8, "2"), (0x04#8, "3"), (0x05#8, "4"), (0x06#8, "5"),
    (0x07#8, "6"), (0x08#8, "7"), (0x09#8, "8"), (0x0A#8, "9"), (0x0B#8, "0"), (0x0C#8, "-"),
    (0x0D#8, "="), (0x0E#8, "Backspace"), (0x0F#8, "Tab"), (0x10#8, "Q"), (0x11#8, "W"),
    (0x12#8, "E"), (0x13#8, "R"), (0x14#8, "T"), (0x15#8, "Y"), (0x16#8, "U"), (0x17#8, "I"),
    (0x18#8, "O"), (0x19#8, "P"), (0x1C#8, "Enter"), (0x1D#8, "Ctrl"), (0x1E#8, "A"),
    (0x1F#8, "S"), (0x20#8, "D"), (0x21#8, "F"), (0x22#8, "G"), (0x23#8, "H"), (0x24#8, "J"),
    (0x25#8, "K"), (0x26#8, "L"), (0x27#8, ";"), (0x29#8, "`"), (0x2A#8, "Shift"), (0x2C#8, "Z"),
    (0x2D#8, "X"), (0x2E#8, "C"), (0x2F#8, "V"), (0x30#8, "B"), (0x31#8, "N"), (0x32#8, "M"),
    (0x33#8, ","), (0x34#8, "."), (0x35#8, "/"), (0x39#8, "Space"), (0x3A#8, "CapsLock"),
    (0x3B#8, "F1"), (0x57#8, "F11"), (0x58#8, "F12")]

/-- The number of elements of `keymap`. -/
def keymapLength : U8 := 0x59#8

/-- `keymap[scancode]`, where `behind` is what is read behind the array. -/
def keymap (behind : U8 → Option String) (scancode : U8) : Option String :=
  if scancode < keymapLength then keymapEntries.lookup scancode else behind scancode

/-- `data & 0x7F` -/
def scancodeOf (data : U8) : U8 := data &&& 0x7F#8

/-- `(data & 0x80) != 0` -/
def isReleased (data : U8) : Bool := data &&& 0x80#8 ≠ 0#8

/-- `keyboard_handler`, which reads `data` from the port. -/
def keyboardHandler (behind : U8 → Option String) (data : U8) : Key where
  sym := keymap behind (scancodeOf data)
  scancode := scancodeOf data
  released := isReleased data

def stdinPoll (key : Key) : U8 := if key.sym.isSome then deviceReady else deviceBusy

/-- `stdin_read`: the returned count, what `buf` holds then, and `key`. -/
def stdinRead (key buf : Key) : U64 × Key × Key :=
  if key.sym.isSome then (1#64, key, { key with sym := none }) else (0#64, buf, key)

/-! Runs of the keyboard and its readers -/

inductive StdinCall where
  | interrupt (data : U8)
  | poll
  | read (buf : Key)

/-- A key as interrupts and reads report it: the scancode, and whether it was released. -/
abbrev KeyEvent := U8 × Bool

/-- The record with its past: the interrupts, and what the successful reads returned. -/
structure Keyboard where
  key : Key
  interrupts : List KeyEvent
  returned : List KeyEvent

def Keyboard.boot : Keyboard := ⟨initialKey, [], []⟩

def Keyboard.call (behind : U8 → Option String) (keyboard : Keyboard) : StdinCall → Keyboard
  | .interrupt data =>
      { keyboard with
        key := keyboardHandler behind data
        interrupts := keyboard.interrupts ++ [(scancodeOf data, isReleased data)] }
  | .poll => keyboard
  | .read buf =>
      let (count, buf, key) := stdinRead keyboard.key buf
      { keyboard with
        key
        returned :=
          if count = 0#64 then keyboard.returned
          else keyboard.returned ++ [(buf.scancode, buf.released)] }

/-- Interrupts carry scancodes that `keymap` names. -/
def StdinCall.Mapped : StdinCall → Prop
  | .interrupt data => scancodeOf data < keymapLength ∧
      (keymapEntries.lookup (scancodeOf data)).isSome
  | .poll => True
  | .read _ => True

abbrev StdinRun (behind : U8 → Option String) : List StdinCall → Keyboard → Prop :=
  Run (guarded (Keyboard.call behind) fun _ call => call.Mapped) Keyboard.boot

/-- What a call does to the mailbox. -/
def StdinCall.action : StdinCall → Option (Mailbox.Action KeyEvent)
  | .interrupt data => some (.put (scancodeOf data, isReleased data))
  | .poll => none
  | .read _ => some .take

/-- The events of the interrupts that a read directly follows, polls aside. -/
def answeredEvents (calls : List StdinCall) : List KeyEvent :=
  Mailbox.answered (calls.filterMap StdinCall.action)

/-- Between any two interrupts there is a read. -/
def ReadInBetween (calls : List StdinCall) : Prop :=
  Mailbox.NoOverwrite (calls.filterMap StdinCall.action)

/-- The key that waits to be read. -/
def Keyboard.pending (keyboard : Keyboard) : Option KeyEvent :=
  keyboard.key.sym.map fun _ => (keyboard.key.scancode, keyboard.key.released)

def Keyboard.mailbox (keyboard : Keyboard) : Mailbox.State KeyEvent where
  slot := keyboard.pending
  sent := keyboard.interrupts
  taken := keyboard.returned

variable {behind : U8 → Option String} {keyboard : Keyboard} {calls : List StdinCall}

theorem keyboardHandler_sym {data : U8} (mapped : (StdinCall.interrupt data).Mapped) :
    ∃ name, (keyboardHandler behind data).sym = some name := by
  obtain ⟨inside, named⟩ := mapped
  rw [← Option.isSome_iff_exists, keyboardHandler, keymap, if_pos inside]
  exact named

/-- The device is busy exactly if no key waits. -/
theorem Keyboard.busy_iff (keyboard : Keyboard) :
    stdinPoll keyboard.key = deviceBusy ↔ keyboard.pending = none := by
  unfold stdinPoll pending
  cases keyboard.key.sym with
  | none => simp
  | some name => simp [deviceReady, deviceBusy]

/-- Each call is a step of the mailbox, or leaves it alone. -/
theorem Keyboard.call_mailbox (keyboard : Keyboard) {call : StdinCall} (mapped : call.Mapped) :
    (keyboard.call behind call).mailbox =
      call.action.elim keyboard.mailbox (Mailbox.step keyboard.mailbox) := by
  cases call with
  | interrupt data =>
      obtain ⟨name, named⟩ := @keyboardHandler_sym behind data mapped
      simp only [call, mailbox, pending, named, Option.map_some]
      rfl
  | poll => rfl
  | read buf =>
      cases waiting : keyboard.key.sym with
      | none => simp [call, stdinRead, mailbox, pending, waiting, StdinCall.action, Mailbox.step]
      | some name =>
          simp [call, stdinRead, mailbox, pending, waiting, StdinCall.action, Mailbox.step]

/-- A run of the keyboard is a run of the mailbox. -/
theorem StdinRun.mailbox (run : StdinRun behind calls keyboard) :
    keyboard.mailbox = Mailbox.run (calls.filterMap StdinCall.action) := by
  induction run with
  | nil => rfl
  | @snoc calls middle call finish before step inductionHypothesis =>
      obtain ⟨mapped, rfl⟩ := step
      rw [Keyboard.call_mailbox middle mapped, inductionHypothesis, List.filterMap_append]
      cases action : call.action with
      | none => simp [action]
      | some action' => simp [action]

/-- A prefix of the interrupts is returned, and all of them once the device is busy. -/
def Keyboard.Lossless (keyboard : Keyboard) : Prop :=
  keyboard.returned <+: keyboard.interrupts ∧
    (stdinPoll keyboard.key = deviceBusy → keyboard.returned = keyboard.interrupts)

/-- The successful reads return, in order and each once, the keys of exactly those
interrupts that no other interrupt comes after before the read; when the device is
busy the newest key has been returned.  Every key is returned or waits exactly if
there is a read between any two interrupts. -/
theorem stdin_returns_answered (run : StdinRun behind calls keyboard) :
    keyboard.returned = answeredEvents calls ∧
      keyboard.returned.Sublist keyboard.interrupts ∧
      (stdinPoll keyboard.key = deviceBusy →
        keyboard.returned.getLast? = keyboard.interrupts.getLast?) ∧
      (keyboard.returned ++ keyboard.pending.toList = keyboard.interrupts ↔
        ReadInBetween calls) ∧
      (ReadInBetween calls → keyboard.Lossless) := by
  have mailbox := run.mailbox
  have slot := congrArg Mailbox.State.slot mailbox
  have sent := congrArg Mailbox.State.sent mailbox
  have taken := congrArg Mailbox.State.taken mailbox
  have order := Mailbox.sublist_sent (calls.filterMap StdinCall.action)
  have complete := Mailbox.complete_iff (calls.filterMap StdinCall.action)
  rw [← slot, ← sent, ← taken] at order complete
  simp only [Keyboard.mailbox] at order complete taken
  refine ⟨taken.trans (Mailbox.taken_run _), (List.sublist_append_left _ _).trans order.1, ?_,
    complete, ?_⟩
  · intro busy
    have last := order.2
    rwa [keyboard.busy_iff.mp busy, Option.toList_none, List.append_nil] at last
  · intro unhurried
    have all := complete.mpr unhurried
    refine ⟨⟨_, all⟩, ?_⟩
    intro busy
    rwa [keyboard.busy_iff.mp busy, Option.toList_none, List.append_nil] at all

/-- A key is pressed and read. -/
theorem stdin_returns_answered_press : ∃ keyboard,
    StdinRun (fun _ => none) [.interrupt 0x1E#8, .read initialKey] keyboard ∧
      keyboard.returned = [(0x1E#8, false)] := by
  have run : StdinRun (fun _ => none) [.interrupt 0x1E#8, .read initialKey] _ :=
    (Run.nil.snoc ⟨⟨by decide, by decide⟩, rfl⟩).snoc ⟨trivial, rfl⟩
  exact ⟨_, run, (stdin_returns_answered run).1⟩

/-- Pressing and releasing a key before the next read loses the press. -/
theorem stdin_loses_press : ¬∀ (behind : U8 → Option String) (calls : List StdinCall)
    (keyboard : Keyboard), StdinRun behind calls keyboard → keyboard.Lossless := by
  intro always
  have run : StdinRun (fun _ => none)
      [.interrupt 0x1E#8, .interrupt 0x9E#8, .read initialKey] _ :=
    ((Run.nil.snoc ⟨⟨by decide, by decide⟩, rfl⟩).snoc ⟨⟨by decide, by decide⟩, rfl⟩).snoc
      ⟨trivial, rfl⟩
  have lossless := (always _ _ _ run).1
  revert lossless
  decide

end Nekonix
