import Nekonix.Library.WordStack
import Nekonix.Sys.Idt

/-!
# The interrupt stubs of `sys/idt.asm`

What the CPU and a stub push is `int_frame_t` from its first field on, if the stub
pushes a zero exactly where the CPU pushes no error code.
-/

namespace Nekonix

open WordStack (Holds)

/-- The general registers but `rsp`. -/
inductive Register where
  | rax
  | rbx
  | rcx
  | rdx
  | rsi
  | rdi
  | rbp
  | r8
  | r9
  | r10
  | r11
  | r12
  | r13
  | r14
  | r15
deriving DecidableEq

structure Cpu where
  general : Register → U64
  cr2 : U64
  cr3 : U64
  ds : U16
  cs : U16
  ss : U16
  rip : U64
  rflags : U64
  rsp : U64
  memory : Memory

namespace Cpu

def push (cpu : Cpu) (word : U64) : Cpu :=
  { cpu with
    rsp := cpu.rsp - 8#64
    memory := Memory.store64 cpu.memory (cpu.rsp - 8#64) word }

/-- The word at an index of the stack. -/
def stackWord (cpu : Cpu) (index : Nat) : U64 :=
  Memory.load64 cpu.memory (cpu.rsp + BitVec.ofNat 64 (8 * index))

def set (cpu : Cpu) (reg : Register) (value : U64) : Cpu :=
  { cpu with general := Function.update cpu.general reg value }

end Cpu

/-- The instructions of the stubs.  `call` pushes the address behind itself. -/
inductive Instr where
  | cli
  | cld
  | push (reg : Register)
  | pushImm (value : U64)
  | pop (reg : Register)
  | movCr3 (reg : Register)
  | movCr2 (reg : Register)
  | movDs (reg : Register)
  | addRsp (value : U64)
  | call (behind : U64)
  | ret
  | iretq

/-- What an instruction does.  `iretq` takes what it pops as it is. -/
def stepInstr (cpu : Cpu) : Instr → Cpu
  | .cli => { cpu with rflags := cpu.rflags &&& ~~~0x200#64 }
  | .cld => { cpu with rflags := cpu.rflags &&& ~~~0x400#64 }
  | .push reg => cpu.push (cpu.general reg)
  | .pushImm value => cpu.push value
  | .pop reg => { cpu.set reg (cpu.stackWord 0) with rsp := cpu.rsp + 8#64 }
  | .movCr3 reg => cpu.set reg cpu.cr3
  | .movCr2 reg => cpu.set reg cpu.cr2
  | .movDs reg => cpu.set reg (cpu.ds.setWidth 64)
  | .addRsp value => { cpu with rsp := cpu.rsp + value }
  | .call behind => cpu.push behind
  | .ret => { cpu with rip := cpu.stackWord 0, rsp := cpu.rsp + 8#64 }
  | .iretq =>
      { cpu with
        rip := cpu.stackWord 0
        cs := (cpu.stackWord 1).setWidth 16
        rflags := cpu.stackWord 2
        rsp := cpu.stackWord 3
        ss := (cpu.stackWord 4).setWidth 16 }

def execCode (code : List Instr) (cpu : Cpu) : Cpu := code.foldl stepInstr cpu

/-! The stubs -/

def pushaq : List Instr :=
  [.push .rax, .push .rbx, .push .rcx, .push .rdx, .push .rsi, .push .rdi, .push .rbp, .push .r8,
    .push .r9, .push .r10, .push .r11, .push .r12, .push .r13, .push .r14, .push .r15,
    .movCr3 .rax, .push .rax, .movCr2 .rax, .push .rax, .movDs .rax, .push .rax]

def popaq : List Instr :=
  [.pop .rax, .pop .rax, .pop .rax, .pop .r15, .pop .r14, .pop .r13, .pop .r12, .pop .r11,
    .pop .r10, .pop .r9, .pop .r8, .pop .rbp, .pop .rdi, .pop .rsi, .pop .rdx, .pop .rcx,
    .pop .rbx, .pop .rax]

/-- `_int_stub` to the call of `idt_handler`. -/
def intStub (behind : U64) : List Instr := pushaq ++ [.cld, .call behind]

/-- `_int_stub` from the return of `idt_handler` on. -/
def intStubReturn : List Instr := popaq ++ [.addRsp 16#64, .iretq]

def isrNoerr (vector : U8) : List Instr :=
  [.cli, .pushImm 0#64, .pushImm (vector.setWidth 64)]

def isrErr (vector : U8) : List Instr := [.cli, .pushImm (vector.setWidth 64)]

/-- The vectors with an `_isr_err`. -/
def hasIsrErr (vector : U8) : Bool :=
  vector = 8#8 || (10#8 ≤ vector && vector ≤ 14#8) || vector = 17#8 || vector = 30#8

/-- `isr_table[vector]`, before the jump to `_int_stub`. -/
def isr (vector : U8) : List Instr :=
  if hasIsrErr vector then isrErr vector else isrNoerr vector

/-! The CPU -/

/-- The vectors for which the CPU pushes an error code. -/
def pushesErrorCode (vector : U8) : Bool :=
  vector = 8#8 || (10#8 ≤ vector && vector ≤ 14#8) || vector = 17#8 || vector = 21#8 ||
    vector = 29#8 || vector = 30#8

/-- What the CPU finds and decides when it takes an interrupt: where its stack for the
handler begins, the address of the stub and the error code. -/
structure Interrupt where
  vector : U8
  errorCode : U64
  top : U64
  isr : U64

/-- The CPU takes an interrupt through a gate of `idt_init`. -/
def Cpu.interrupt (cpu : Cpu) (taken : Interrupt) : Cpu :=
  let onStack := { cpu with rsp := taken.top }
  let onStack := onStack.push (cpu.ss.setWidth 64)
  let onStack := onStack.push cpu.rsp
  let onStack := onStack.push cpu.rflags
  let onStack := onStack.push (cpu.cs.setWidth 64)
  let onStack := onStack.push cpu.rip
  let onStack := if pushesErrorCode taken.vector then onStack.push taken.errorCode else onStack
  { onStack with cs := 0x08#16, rip := taken.isr, rflags := cpu.rflags &&& ~~~0x200#64 }

/-! `int_frame_t` -/

inductive FrameField where
  | ds
  | cr2
  | cr3
  | general (reg : Register)
  | vector
  | err
  | rip
  | cs
  | rflags
  | rsp
  | ss
deriving DecidableEq

/-- The fields of the packed `int_frame_t`, all of type `u64`, in their order. -/
def intFrameFields : List FrameField :=
  [.ds, .cr2, .cr3, .general .r15, .general .r14, .general .r13, .general .r12, .general .r11,
    .general .r10, .general .r9, .general .r8, .general .rbp, .general .rdi, .general .rsi,
    .general .rdx, .general .rcx, .general .rbx, .general .rax, .vector, .err, .rip, .cs, .rflags,
    .rsp, .ss]

/-- A field of the `int_frame_t` at `frame`. -/
def frameField (memory : Memory) (frame : U64) (field : FrameField) : U64 :=
  Memory.load64 memory (frame + BitVec.ofNat 64 (8 * intFrameFields.idxOf field))

/-- What a field is to hold of the CPU that takes an interrupt. -/
def savedField (cpu : Cpu) (taken : Interrupt) : FrameField → U64
  | .ds => cpu.ds.setWidth 64
  | .cr2 => cpu.cr2
  | .cr3 => cpu.cr3
  | .general reg => cpu.general reg
  | .vector => taken.vector.setWidth 64
  | .err => if pushesErrorCode taken.vector then taken.errorCode else 0#64
  | .rip => cpu.rip
  | .cs => cpu.cs.setWidth 64
  | .rflags => cpu.rflags
  | .rsp => cpu.rsp
  | .ss => cpu.ss.setWidth 64

/-- The CPU goes on with the registers of a frame. -/
structure Restored (cpu : Cpu) (frame : FrameField → U64) : Prop where
  general : ∀ reg, cpu.general reg = frame (.general reg)
  rip : cpu.rip = frame .rip
  cs : cpu.cs = (frame .cs).setWidth 16
  rflags : cpu.rflags = frame .rflags
  rsp : cpu.rsp = frame .rsp
  ss : cpu.ss = (frame .ss).setWidth 16

/-- The CPU at the first instruction of `idt_handler`, whose argument is behind the
return address. -/
def atHandler (cpu : Cpu) (taken : Interrupt) (behind : U64) : Cpu :=
  execCode (isr taken.vector ++ intStub behind) (cpu.interrupt taken)

variable {cpu : Cpu} {taken : Interrupt} {words rest : List U64} {behind : U64}

/-! What lies on the stack -/

namespace Cpu

/-- The top of the stack, from the top word on. -/
def Stacked (cpu : Cpu) (words : List U64) : Prop := Holds cpu.memory cpu.rsp words

theorem Stacked.push (stacked : cpu.Stacked words) (word : U64)
    (small : words.length ≤ 200) : (cpu.push word).Stacked (word :: words) :=
  WordStack.Holds.push stacked word (by omega)

/-- Words are pushed one after the other, and nothing else changes. -/
theorem Stacked.pushes (pushed : List U64) (stacked : cpu.Stacked words)
    (small : words.length + pushed.length ≤ 200) :
    ∃ rsp memory, pushed.foldl Cpu.push cpu = { cpu with rsp, memory } ∧
      Holds memory rsp (pushed.reverse ++ words) := by
  induction pushed generalizing cpu words with
  | nil => exact ⟨cpu.rsp, cpu.memory, rfl, stacked⟩
  | cons word pushed inductionHypothesis =>
      rw [List.length_cons] at small
      have below : (word :: words).length + pushed.length ≤ 200 := by
        rw [List.length_cons]
        omega
      obtain ⟨rsp, memory, result, holds⟩ :=
        inductionHypothesis (stacked.push word (by omega)) below
      exact ⟨rsp, memory, result, by simpa using holds⟩

theorem Stacked.stackWord (stacked : cpu.Stacked words) {index : Nat}
    (bound : index < words.length) : cpu.stackWord index = words[index] :=
  WordStack.holds_iff.mp stacked index bound

end Cpu

theorem exec_cons (instr : Instr) (code : List Instr) (cpu : Cpu) :
    execCode (instr :: code) cpu = execCode code (stepInstr cpu instr) := rfl

theorem exec_append (first second : List Instr) (cpu : Cpu) :
    execCode (first ++ second) cpu = execCode second (execCode first cpu) :=
  List.foldl_append

theorem exec_pushes (regs : List Register) (cpu : Cpu) :
    execCode (regs.map .push) cpu = (regs.map cpu.general).foldl Cpu.push cpu := by
  induction regs generalizing cpu with
  | nil => rfl
  | cons reg regs inductionHypothesis => exact inductionHypothesis (cpu.push (cpu.general reg))

/-- Registers are popped in the order of the words. -/
theorem exec_pops (regs : List Register) (values : Register → U64)
    (stacked : cpu.Stacked (regs.map values ++ rest)) :
    ∃ rsp general, execCode (regs.map .pop) cpu = { cpu with rsp, general } ∧
      Holds cpu.memory rsp rest ∧
      ∀ reg, general reg = if reg ∈ regs then values reg else cpu.general reg := by
  induction regs generalizing cpu with
  | nil => exact ⟨cpu.rsp, cpu.general, rfl, stacked, fun reg => by simp⟩
  | cons reg regs inductionHypothesis =>
      have popped : cpu.stackWord 0 = values reg := stacked.stackWord (Nat.zero_lt_succ _)
      obtain ⟨rsp, general, result, above, registers⟩ :=
        @inductionHypothesis (stepInstr cpu (.pop reg)) stacked.2
      refine ⟨rsp, general, result, above, fun other => ?_⟩
      rw [registers other]
      by_cases again : other ∈ regs
      · simp [again]
      · by_cases same : other = reg <;> simp [stepInstr, Cpu.set, popped, again, same]

/-- The registers that `pushaq` saves first. -/
def savedRegisters : List Register :=
  [.rax, .rbx, .rcx, .rdx, .rsi, .rdi, .rbp, .r8, .r9, .r10, .r11, .r12, .r13, .r14, .r15]

/-- The words that `pushaq` leaves on the stack, from the top on. -/
def pushaqWords (cpu : Cpu) : List U64 :=
  cpu.ds.setWidth 64 :: cpu.cr2 :: cpu.cr3 :: savedRegisters.reverse.map cpu.general

/-- After the registers come `cr3`, `cr2` and `ds`, through `rax`. -/
theorem exec_pushSystem (stacked : cpu.Stacked words) (small : words.length ≤ 150) :
    (execCode [.movCr3 .rax, .push .rax, .movCr2 .rax, .push .rax, .movDs .rax, .push .rax, .cld,
      .call behind] cpu).Stacked
        (behind :: cpu.ds.setWidth 64 :: cpu.cr2 :: cpu.cr3 :: words) := by
  have withCr3 := @Cpu.Stacked.push (cpu.set .rax cpu.cr3) _ stacked cpu.cr3 (by omega)
  have withCr2 := withCr3.push cpu.cr2 (by simp only [List.length_cons]; omega)
  have withDs := withCr2.push (cpu.ds.setWidth 64) (by simp only [List.length_cons]; omega)
  have called := withDs.push behind (by simp only [List.length_cons]; omega)
  simpa [Cpu.Stacked, execCode, stepInstr, Cpu.push, Cpu.set] using called

theorem intStub_stacked (stacked : cpu.Stacked words) (small : words.length ≤ 100) :
    (execCode (intStub behind) cpu).Stacked (behind :: (pushaqWords cpu ++ words)) := by
  have count : (savedRegisters.map cpu.general).length = 15 := rfl
  obtain ⟨rsp, memory, result, holds⟩ :=
    Cpu.Stacked.pushes (savedRegisters.map cpu.general) stacked (by omega)
  have code : intStub behind = savedRegisters.map .push ++ [.movCr3 .rax, .push .rax,
      .movCr2 .rax, .push .rax, .movDs .rax, .push .rax, .cld, .call behind] := rfl
  rw [code, exec_append, exec_pushes, result]
  refine exec_pushSystem holds ?_
  simp only [List.append_eq, List.length_append, List.length_map, List.length_reverse] at count ⊢
  omega

/-- What a stub pushes on top of the error code, if the CPU has pushed one. -/
def isrWords (vector : U8) : List U64 :=
  if hasIsrErr vector then [vector.setWidth 64] else [vector.setWidth 64, 0#64]

theorem isr_stacked (vector : U8) (stacked : cpu.Stacked words) (small : words.length ≤ 98) :
    ∃ rsp memory rflags, execCode (isr vector) cpu = { cpu with rsp, memory, rflags } ∧
      Holds memory rsp (isrWords vector ++ words) := by
  unfold isr isrWords
  split
  · exact ⟨_, _, _, rfl, stacked.push (vector.setWidth 64) (by omega)⟩
  · have withZero := stacked.push 0#64 (by omega)
    exact ⟨_, _, _, rfl, withZero.push (vector.setWidth 64) (by rw [List.length_cons]; omega)⟩

/-- What the CPU pushes, from the top on. -/
def interruptWords (cpu : Cpu) (taken : Interrupt) : List U64 :=
  (if pushesErrorCode taken.vector then [taken.errorCode] else []) ++
    [cpu.rip, cpu.cs.setWidth 64, cpu.rflags, cpu.rsp, cpu.ss.setWidth 64]

theorem interrupt_stacked (cpu : Cpu) (taken : Interrupt) :
    ∃ rsp memory cs rip rflags,
      cpu.interrupt taken = { cpu with rsp, memory, cs, rip, rflags } ∧
        Holds memory rsp (interruptWords cpu taken) := by
  have empty : Cpu.Stacked { cpu with rsp := taken.top } [] := trivial
  have five := empty.pushes
    [cpu.ss.setWidth 64, cpu.rsp, cpu.rflags, cpu.cs.setWidth 64, cpu.rip] (by simp)
  have six := empty.pushes
    [cpu.ss.setWidth 64, cpu.rsp, cpu.rflags, cpu.cs.setWidth 64, cpu.rip, taken.errorCode]
    (by simp)
  simp only [List.foldl_cons, List.foldl_nil] at five six
  obtain ⟨rsp, memory, result, holds⟩ := five
  obtain ⟨rspError, memoryError, resultError, holdsError⟩ := six
  rcases Bool.eq_false_or_eq_true (pushesErrorCode taken.vector) with pushes | pushes
  · simp only [Cpu.interrupt, interruptWords, pushes, if_true, resultError]
    exact ⟨_, _, _, _, _, rfl, holdsError⟩
  · simp only [Cpu.interrupt, interruptWords, pushes, Bool.false_eq_true, if_false, result]
    exact ⟨_, _, _, _, _, rfl, holds⟩

/-- The stack at the call of `idt_handler`. -/
theorem atHandler_stacked (cpu : Cpu) (taken : Interrupt) (behind : U64) :
    (atHandler cpu taken behind).Stacked
      (behind :: (pushaqWords cpu ++ (isrWords taken.vector ++ interruptWords cpu taken))) := by
  obtain ⟨rsp, memory, cs, rip, rflags, delivered, pushed⟩ := interrupt_stacked cpu taken
  have few : (interruptWords cpu taken).length ≤ 6 := by
    unfold interruptWords
    split <;> simp
  have fewer : (isrWords taken.vector).length ≤ 2 := by
    unfold isrWords
    split <;> simp
  obtain ⟨rspStub, memoryStub, rflagsStub, stubbed, holds⟩ :=
    @isr_stacked { cpu with rsp, memory, cs, rip, rflags } _ taken.vector pushed (by omega)
  rw [atHandler, exec_append, delivered, stubbed]
  refine intStub_stacked holds ?_
  rw [List.length_append]
  omega

/-! Frames on the stack -/

theorem mem_intFrameFields (field : FrameField) : field ∈ intFrameFields := by
  rcases field with _ | _ | _ | ⟨_ | _⟩ | _ <;> decide

/-- A frame on the stack is known by its fields. -/
theorem holds_intFrameFields {memory : Memory} {frame : U64} {values : FrameField → U64} :
    Holds memory frame (intFrameFields.map values) ↔
      ∀ field, frameField memory frame field = values field := by
  rw [WordStack.holds_iff]
  constructor
  · intro words field
    have bound := List.idxOf_lt_length_of_mem (mem_intFrameFields field)
    have word := words (intFrameFields.idxOf field) (by rwa [List.length_map])
    rw [List.getElem_map, List.getElem_idxOf] at word
    exact word
  · intro fields index bound
    rw [List.length_map] at bound
    have field := fields intFrameFields[index]
    have distinct : intFrameFields.Nodup := by decide
    rw [frameField, distinct.idxOf_getElem index bound] at field
    rw [List.getElem_map]
    exact field

/-- What the fields hold if the stub pushes a zero on top of an error code. -/
def shiftedField (cpu : Cpu) (taken : Interrupt) : FrameField → U64
  | .err => 0#64
  | .rip => taken.errorCode
  | .cs => cpu.rip
  | .rflags => cpu.cs.setWidth 64
  | .rsp => cpu.rflags
  | .ss => cpu.rsp
  | field => savedField cpu taken field

/-- All stubs but two have the shape that the CPU's error codes call for. -/
theorem hasIsrErr_eq : ∀ vector : U8, ¬(vector = 21#8 ∨ vector = 29#8) →
    hasIsrErr vector = pushesErrorCode vector := by
  decide

theorem hasIsrErr_of_shifted {vector : U8} (shifted : vector = 21#8 ∨ vector = 29#8) :
    hasIsrErr vector = false ∧ pushesErrorCode vector = true := by
  rcases shifted with rfl | rfl <;> decide

/-- The fields of the frame at the call of `idt_handler`. -/
theorem atHandler_fields (cpu : Cpu) (taken : Interrupt) (behind : U64) (field : FrameField) :
    frameField (atHandler cpu taken behind).memory ((atHandler cpu taken behind).rsp + 8#64) field =
      if taken.vector = 21#8 ∨ taken.vector = 29#8 then
        shiftedField cpu taken field
      else
        savedField cpu taken field := by
  have onStack := (atHandler_stacked cpu taken behind).2
  by_cases shifted : taken.vector = 21#8 ∨ taken.vector = 29#8
  · obtain ⟨noErr, pushed⟩ := hasIsrErr_of_shifted shifted
    have asFields : pushaqWords cpu ++ (isrWords taken.vector ++ interruptWords cpu taken) =
        intFrameFields.map (shiftedField cpu taken) ++ [cpu.ss.setWidth 64] := by
      rw [isrWords, interruptWords, noErr, pushed]
      rfl
    rw [asFields] at onStack
    rw [if_pos shifted]
    exact holds_intFrameFields.mp onStack.left field
  · have same := hasIsrErr_eq taken.vector shifted
    have asFields : pushaqWords cpu ++ (isrWords taken.vector ++ interruptWords cpu taken) =
        intFrameFields.map (savedField cpu taken) := by
      rw [isrWords, interruptWords, same]
      cases pushed : pushesErrorCode taken.vector <;>
        simp [intFrameFields, pushaqWords, savedRegisters, savedField, pushed]
    rw [asFields] at onStack
    rw [if_neg shifted]
    exact holds_intFrameFields.mp onStack field

/-- The shifted fields agree only if all of them are zero. -/
theorem shifted_agrees_iff (pushed : pushesErrorCode taken.vector = true) :
    (∀ field, shiftedField cpu taken field = savedField cpu taken field) ↔
      taken.errorCode = 0#64 ∧ cpu.rip = 0#64 ∧ cpu.cs = 0#16 ∧ cpu.rflags = 0#64 ∧
        cpu.rsp = 0#64 ∧ cpu.ss = 0#16 := by
  have null : ∀ selector : U16, (0#64 : U64) = selector.setWidth 64 → selector = 0#16 := by
    intro selector zero
    bv_omega
  constructor
  · intro agree
    have err : 0#64 = if pushesErrorCode taken.vector then taken.errorCode else 0#64 := agree .err
    have rip : taken.errorCode = cpu.rip := agree .rip
    have cs : cpu.rip = cpu.cs.setWidth 64 := agree .cs
    have rflags : cpu.cs.setWidth 64 = cpu.rflags := agree .rflags
    have rsp : cpu.rflags = cpu.rsp := agree .rsp
    have ss : cpu.rsp = cpu.ss.setWidth 64 := agree .ss
    rw [if_pos pushed] at err
    rw [← rip, ← err] at cs
    rw [← cs] at rflags
    rw [← rflags] at rsp
    rw [← rsp] at ss
    exact ⟨err.symm, (err.trans rip).symm, null _ cs, rflags.symm, rsp.symm, null _ ss⟩
  · rintro ⟨err, rip, cs, rflags, rsp, ss⟩ field
    cases field <;> simp [shiftedField, savedField, pushed, err, rip, cs, rflags, rsp, ss]

/-- The fields lie where the rest of the kernel reads and writes them. -/
theorem frameField_accessors (memory : Memory) (frame : U64) :
    intFrameSize = 8 * intFrameFields.length ∧
      ∀ place ∈ [(.general .r9, intFrameR9), (.general .r8, intFrameR8),
        (.general .rdi, intFrameRdi), (.general .rsi, intFrameRsi), (.general .rdx, intFrameRdx),
        (.general .rcx, intFrameRcx), (.general .rax, intFrameRax), (.vector, intFrameVector),
        (.rip, intFrameRip), (.cs, intFrameCs), (.rflags, intFrameRflags), (.rsp, intFrameRsp),
        (.ss, intFrameSs)],
        frameField memory frame place.1 = Memory.load64 memory (place.2 frame) := by
  refine ⟨rfl, ?_⟩
  simp only [List.forall_mem_cons, List.not_mem_nil, false_implies, implies_true, and_true]
  exact ⟨rfl, rfl, rfl, rfl, rfl, rfl, rfl, rfl, rfl, rfl, rfl, rfl, rfl⟩

/-- `idt_handler` finds the vector in every case, so it takes the right branch. -/
theorem atHandler_vector (cpu : Cpu) (taken : Interrupt) (behind : U64) :
    Memory.load64 (atHandler cpu taken behind).memory
      (intFrameVector ((atHandler cpu taken behind).rsp + 8#64)) = taken.vector.setWidth 64 := by
  have field := atHandler_fields cpu taken behind .vector
  simp only [shiftedField, savedField, ite_self] at field
  exact field

/-! The way back -/

/-- `popaq` takes the general registers from the frame. -/
theorem exec_popaq {frame : FrameField → U64} (stacked : cpu.Stacked (intFrameFields.map frame)) :
    ∃ rsp general, execCode popaq cpu = { cpu with rsp, general } ∧
      Holds cpu.memory rsp
        ([.vector, .err, .rip, .cs, .rflags, .rsp, .ss].map frame) ∧
      ∀ reg, general reg = frame (.general reg) := by
  -- `rax` takes `ds`, `cr2` and `cr3` first
  obtain ⟨rsp, general, result, above, registers⟩ :=
    @exec_pops (stepInstr (stepInstr (stepInstr cpu (.pop .rax)) (.pop .rax)) (.pop .rax)) _
      savedRegisters.reverse (fun reg => frame (.general reg)) stacked.2.2.2
  refine ⟨rsp, general, result, above, fun reg => ?_⟩
  have saved : reg ∈ savedRegisters.reverse := by
    cases reg <;> decide
  rw [registers reg, if_pos saved]

/-- The CPU goes on with whatever frame the handler leaves. -/
theorem intStubReturn_restored {frame : FrameField → U64}
    (left : ∀ field, frameField cpu.memory (cpu.rsp + 8#64) field = frame field) :
    Restored (execCode (.ret :: intStubReturn) cpu) frame := by
  have stacked : (stepInstr cpu .ret).Stacked (intFrameFields.map frame) :=
    holds_intFrameFields.mpr left
  obtain ⟨rsp, general, result, holds, registers⟩ := exec_popaq stacked
  rw [exec_cons, intStubReturn, exec_append, result]
  generalize stepInstr cpu .ret = returned at *
  -- the vector and the error code are skipped
  have skipped : Cpu.Stacked { returned with rsp := rsp + 16#64, general }
      ([.rip, .cs, .rflags, .rsp, .ss].map frame) := by
    have words := holds.2.2
    rwa [BitVec.add_assoc rsp 8#64 8#64] at words
  have word := fun index bound => @Cpu.Stacked.stackWord _ _ skipped index bound
  refine ⟨registers, word 0 (by simp), ?_, word 2 (by simp), word 3 (by simp), ?_⟩
  · exact congrArg (BitVec.setWidth 16) (word 1 (by simp))
  · exact congrArg (BitVec.setWidth 16) (word 4 (by simp))

/-- At the call of `idt_handler` each field of its argument holds what the CPU had when it
took the interrupt, and the CPU goes on with whatever frame the handler leaves, exactly if
the vector is not one of the two whose stub takes the CPU to push no error code.  For these
it takes registers that are all zero. -/
theorem int_stub_agrees_iff (cpu : Cpu) (taken : Interrupt) (behind : U64) :
    ((∀ field, frameField (atHandler cpu taken behind).memory
          ((atHandler cpu taken behind).rsp + 8#64) field = savedField cpu taken field) ∧
        ∀ (left : Cpu) (frame : FrameField → U64), left.rsp = (atHandler cpu taken behind).rsp →
          (∀ field, frameField left.memory (left.rsp + 8#64) field = frame field) →
          Restored (execCode (.ret :: intStubReturn) left) frame) ↔
      (taken.vector ≠ 21#8 ∧ taken.vector ≠ 29#8) ∨
        (taken.errorCode = 0#64 ∧ cpu.rip = 0#64 ∧ cpu.cs = 0#16 ∧ cpu.rflags = 0#64 ∧
          cpu.rsp = 0#64 ∧ cpu.ss = 0#16) := by
  rw [and_iff_left fun left frame _ fields => intStubReturn_restored fields]
  simp only [atHandler_fields]
  by_cases shifted : taken.vector = 21#8 ∨ taken.vector = 29#8
  · simp only [if_pos shifted]
    rw [or_iff_right fun neither => shifted.elim neither.1 neither.2, shifted_agrees_iff]
    exact (hasIsrErr_of_shifted shifted).2
  · simp only [if_neg shifted]
    exact ⟨fun _ => Or.inl (not_or.mp shifted), fun _ _ => trivial⟩

/-- A control protection fault: `err` is zero, and `rip` is the error code. -/
theorem int_stub_shifts :
    ¬ ∀ (cpu : Cpu) (taken : Interrupt) (behind : U64) (field : FrameField),
      frameField (atHandler cpu taken behind).memory
        ((atHandler cpu taken behind).rsp + 8#64) field = savedField cpu taken field := by
  intro agrees
  have field := agrees ⟨fun _ => 0#64, 0#64, 0#64, 0x10#16, 0x08#16, 0x10#16, 0x1000#64, 0x202#64,
    0x8000#64, fun _ => 0#8⟩ ⟨21#8, 3#64, 0x8000#64, 0x2000#64⟩ 0x3000#64 .err
  rw [atHandler_fields] at field
  exact absurd field (by decide)

end Nekonix
