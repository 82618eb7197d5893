import Nekonix.Fs.Ramfs
import Nekonix.Library.Loop

/-!
# The entry loop of `ramfs_parse`

The loop goes on by the size that an entry says it has, in 32 bits.  A negative size
can bring it to where it was.
-/

namespace Nekonix

open Loop Relation

variable {data size parent header offset : U64} {ramfs next : Ramfs}

theorem Ramfs.strtok_vfs (ramfs : Ramfs) (str : U64) : (ramfs.strtok str).2.vfs = ramfs.vfs := rfl

/-! One turn of the loop -/

/-- `file_size` -/
def ramfsFileSize (memory : Memory) (header : U64) : U32 :=
  BitVec.ofInt 32 (strtol memory (header + ustarSizeOffset) 8)

/-- `is_directory` -/
def ramfsIsDirectory (memory : Memory) (header : U64) : Bool :=
  memory (header + ustarTypeflagOffset) = charFive

/-- `mode` -/
def ramfsMode (memory : Memory) (header : U64) : U32 :=
  BitVec.ofInt 32 (strtol memory (header + ustarModeOffset) 8)

/-- `name`, behind a leading `"./"` -/
def ramfsName (memory : Memory) (header : U64) : U64 :=
  if strncmp (cString memory header) dotSlash 2 = 0 then header + 2#64 else header

/-- The entry has no name, or is the archive's own directory. -/
def RamfsSkips (memory : Memory) (name : U64) : Prop :=
  strlen memory name = 0#64 ∨ strcmp (cString memory name) [charDot] = 0

instance (memory : Memory) (name : U64) : Decidable (RamfsSkips memory name) :=
  inferInstanceAs (Decidable (_ ∨ _))

/-- What an entry that is not skipped adds to the tree, and whether that failed. -/
def ramfsEntry (parent : U64) (ramfs : Ramfs) (header : U64) : Option (Bool × Ramfs) := do
  let isDirectory := ramfsIsDirectory ramfs.memory header
  let mode := ramfsMode ramfs.memory header
  let fileSize := ramfsFileSize ramfs.memory header
  let (token, ramfs) := ramfs.strtok (ramfsName ramfs.memory header)
  let (stop, ramfs) ← ramfsParseComponents isDirectory mode (2 ^ 64) ramfs token parent
  match stop with
  | none => some (true, ramfs)
  | some stop =>
      if isDirectory then
        some (false, ramfs)
      else
        let (error, ramfs) ← ramfsMakeFile ramfs header fileSize mode stop
        some (error ≠ 0#32, ramfs)

/-- Where the next header is looked for. -/
def ramfsNext (memory : Memory) (data offset : U64) : U64 :=
  offset + (ustarEntrySize (ramfsFileSize memory (data + offset))).setWidth 64

/-- One turn of the entry loop, from the state and the offset it begins with. -/
def ramfsTurn (data size parent : U64) (head : Ramfs × U64) :
    Turn (Ramfs × U64) (Option (U32 × Ramfs)) :=
  let (ramfs, offset) := head
  if offset < size then
    let header := data + offset
    let next := ramfsNext ramfs.memory data offset
    if ramfs.memory header = 0#8 then
      .leave (some (0#32, ramfs))
    else if RamfsSkips ramfs.memory (ramfsName ramfs.memory header) then
      .next (ramfs, next)
    else
      match ramfsEntry parent ramfs header with
      | none => .leave none
      | some (failed, ramfs) => if failed then .leave (some (1#32, ramfs)) else .next (ramfs, next)
  else
    .leave (some (0#32, ramfs))

theorem ramfsParseEntries_succ (fuel : Nat) (offset : U64) :
    ramfsParseEntries data size parent (fuel + 1) ramfs offset =
      match ramfsTurn data size parent (ramfs, offset) with
      | .leave result => result
      | .next head => ramfsParseEntries data size parent fuel head.1 head.2 := by
  rw [ramfsParseEntries, ramfsTurn]
  by_cases inside : offset < size
  · simp only [if_pos inside]
    by_cases last : ramfs.memory (data + offset) = 0#8
    · simp only [if_pos last]
    simp only [if_neg last]
    by_cases skips : RamfsSkips ramfs.memory (ramfsName ramfs.memory (data + offset))
    · simp only [if_pos skips]
      exact if_pos skips
    · simp only [if_neg skips]
      refine (if_neg skips).trans ?_
      unfold ramfsEntry ramfsIsDirectory ramfsMode ramfsFileSize ramfsName
      simp only [Option.bind_eq_bind]
      by_cases directory : ramfs.memory (data + offset + ustarTypeflagOffset) = charFive
      · simp only [directory, decide_true, if_true]
        rcases ramfsParseComponents _ _ _ _ _ _ with _ | ⟨_ | stop, middle⟩ <;> rfl
      · simp only [directory, decide_false, Bool.false_eq_true, if_false]
        rcases ramfsParseComponents _ _ _ _ _ _ with _ | ⟨_ | stop, middle⟩
        · rfl
        · rfl
        · simp only [Option.bind_some]
          rcases ramfsMakeFile _ _ _ _ _ with _ | ⟨error, last⟩
          · rfl
          · by_cases failed : error = 0#32
            · simp only [Option.bind_some, failed, ne_eq, not_true_eq_false, decide_false,
                Bool.false_eq_true, if_false]
              rfl
            · simp only [Option.bind_some, failed, ne_eq, not_false_eq_true, decide_true, if_true]
  · simp only [if_neg inside]

theorem ramfsTurn_next {head after : Ramfs × U64}
    (turn : ramfsTurn data size parent head = .next after) :
    head.2 < size ∧ head.1.memory (data + head.2) ≠ 0#8 ∧
      after.2 = ramfsNext head.1.memory data head.2 ∧
      (RamfsSkips head.1.memory (ramfsName head.1.memory (data + head.2)) ∧ after.1 = head.1 ∨
        ¬RamfsSkips head.1.memory (ramfsName head.1.memory (data + head.2)) ∧
          ramfsEntry parent head.1 (data + head.2) = some (false, after.1)) := by
  obtain ⟨ramfs, offset⟩ := head
  unfold ramfsTurn at turn
  dsimp only at turn ⊢
  split_ifs at turn with inside last skips
  · cases turn
    exact ⟨inside, last, rfl, .inl ⟨skips, rfl⟩⟩
  · rcases made : ramfsEntry parent ramfs (data + offset) with _ | ⟨_ | _, middle⟩
    all_goals rw [made] at turn; cases turn
    exact ⟨inside, last, rfl, .inr ⟨skips, rfl⟩⟩

theorem ramfsTurn_leave {head : Ramfs × U64} {error : U32}
    (turn : ramfsTurn data size parent head = .leave (some (error, next))) :
    next = head.1 ∨
      head.2 < size ∧ head.1.memory (data + head.2) ≠ 0#8 ∧
        ¬RamfsSkips head.1.memory (ramfsName head.1.memory (data + head.2)) ∧
        ramfsEntry parent head.1 (data + head.2) = some (true, next) := by
  obtain ⟨ramfs, offset⟩ := head
  unfold ramfsTurn at turn
  dsimp only at turn ⊢
  split_ifs at turn with inside last skips
  · cases turn
    exact .inl rfl
  · rcases made : ramfsEntry parent ramfs (data + offset) with _ | ⟨_ | _, middle⟩
    all_goals rw [made] at turn; cases turn
    exact .inr ⟨inside, last, skips, rfl⟩
  · cases turn
    exact .inl rfl

/-- A loop that returns returns from a turn that it comes to. -/
theorem ramfsParseEntries_leaves {fuel : Nat} {start head : Ramfs × U64} {error : U32}
    (reached : Reaches (ramfsTurn data size parent) start head)
    (result : ramfsParseEntries data size parent fuel head.1 head.2 = some (error, next)) :
    ∃ last, Reaches (ramfsTurn data size parent) start last ∧
      ramfsTurn data size parent last = .leave (some (error, next)) := by
  induction fuel generalizing head with
  | zero => cases result
  | succ fuel inductionHypothesis =>
      rw [ramfsParseEntries_succ] at result
      cases turn : ramfsTurn data size parent head with
      | leave left =>
          rw [turn] at result
          cases result
          exact ⟨head, reached, turn⟩
      | next after =>
          rw [turn] at result
          exact inductionHypothesis (reached.tail turn) result

theorem ramfsParseEntries_of_ends {head : Ramfs × U64} {heads : List (Ramfs × U64)}
    {result : Option (U32 × Ramfs)} (ends : Ends (ramfsTurn data size parent) head heads result) :
    ∀ fuel, heads.length ≤ fuel →
      ramfsParseEntries data size parent fuel head.1 head.2 = result := by
  induction ends with
  | leave turn =>
      intro fuel enough
      cases fuel with
      | zero => cases enough
      | succ fuel => rw [ramfsParseEntries_succ, turn]
  | turn turn _ inductionHypothesis =>
      intro fuel enough
      cases fuel with
      | zero => cases enough
      | succ fuel =>
          rw [ramfsParseEntries_succ, turn]
          exact inductionHypothesis fuel (Nat.le_of_succ_le_succ enough)

/-! How far an entry goes -/

theorem and_not_511 (x : U32) : (x &&& ~~~511#32).toNat = x.toNat / 512 * 512 := by
  have isShift : x &&& ~~~511#32 = x >>> 9 <<< 9 := by
    have mask : ∀ bit < 32, (~~~511#32 : U32).getLsbD bit = decide (9 ≤ bit) := by decide
    apply BitVec.eq_of_getLsbD_eq
    intro bit bound
    rw [BitVec.getLsbD_and, mask bit bound, BitVec.getLsbD_shiftLeft, BitVec.getLsbD_ushiftRight]
    by_cases low : bit < 9
    · simp [low]
    · have restored : 9 + (bit - 9) = bit := by omega
      simp [low, bound, restored]
      omega
  have below := x.isLt
  rw [isShift, BitVec.toNat_shiftLeft, BitVec.toNat_ushiftRight, Nat.shiftRight_eq_div_pow,
    Nat.shiftLeft_eq]
  omega

theorem ustarEntrySize_toNat (fileSize : U32) :
    (ustarEntrySize fileSize).toNat =
      (512 + (fileSize.toNat + 511) % 2 ^ 32 / 512 * 512) % 2 ^ 32 := by
  rw [ustarEntrySize, BitVec.toNat_add, and_not_511, BitVec.toNat_add]
  rfl

/-- A size from -1023 to -512, as the 32 bits have it. -/
def SizeStalls (fileSize : U32) : Prop := 0xfffffc01#32 ≤ fileSize ∧ fileSize ≤ 0xfffffe00#32

/-- The size of the entry does not take the loop back to where it is, nor around. -/
def EntryAdvances (data : U64) (head : Ramfs × U64) : Prop :=
  ¬SizeStalls (ramfsFileSize head.1.memory (data + head.2)) ∧
    head.2.toNat + (ustarEntrySize (ramfsFileSize head.1.memory (data + head.2))).toNat < 2 ^ 64

theorem ramfsNext_advances_iff (head : Ramfs × U64) :
    head.2.toNat + 512 ≤ (ramfsNext head.1.memory data head.2).toNat ↔ EntryAdvances data head := by
  have further : (ramfsNext head.1.memory data head.2).toNat =
      (head.2.toNat +
        (ustarEntrySize (ramfsFileSize head.1.memory (data + head.2))).toNat) % 2 ^ 64 := by
    rw [ramfsNext, BitVec.toNat_add, BitVec.toNat_setWidth]
    omega
  have below := head.2.isLt
  rw [further]
  unfold EntryAdvances SizeStalls
  generalize ramfsFileSize head.1.memory (data + head.2) = fileSize
  have isSize := ustarEntrySize_toNat fileSize
  have bound := fileSize.isLt
  rw [BitVec.le_def, BitVec.le_def, BitVec.toNat_ofNat, BitVec.toNat_ofNat]
  omega

/-- The loop ends, and each of its turns that goes on is a header further. -/
structure ParseProgress (data size parent : U64) (ramfs : Ramfs) : Prop where
  advances : ∀ head after, Reaches (ramfsTurn data size parent) (ramfs, 0#64) head →
    ramfsTurn data size parent head = .next after → head.2.toNat + 512 ≤ after.2.toNat
  ends : ∃ heads result, Ends (ramfsTurn data size parent) (ramfs, 0#64) heads result ∧
    ramfsParseEntries data size parent (2 ^ 64) ramfs 0#64 = result

/-- `ramfs_parse` makes progress exactly if no size that it meets stalls it. -/
theorem ramfs_parse_progress_iff (data size parent : U64) (ramfs : Ramfs) :
    ParseProgress data size parent ramfs ↔
      ∀ head after, Reaches (ramfsTurn data size parent) (ramfs, 0#64) head →
        ramfsTurn data size parent head = .next after → EntryAdvances data head := by
  constructor
  · intro progress head after reached turn
    have further := progress.advances head after reached turn
    rw [(ramfsTurn_next turn).2.2.1] at further
    exact (ramfsNext_advances_iff head).mp further
  · intro allAdvance
    have advances : ∀ head after, Reaches (ramfsTurn data size parent) (ramfs, 0#64) head →
        ramfsTurn data size parent head = .next after → head.2.toNat + 512 ≤ after.2.toNat := by
      intro head after reached turn
      rw [(ramfsTurn_next turn).2.2.1]
      exact (ramfsNext_advances_iff head).mpr (allAdvance head after reached turn)
    refine ⟨advances, ?_⟩
    obtain ⟨heads, result, ends, short⟩ :=
      @ends_of_measure _ _ (ramfsTurn data size parent) (ramfs, 0#64)
        (Reaches (ramfsTurn data size parent) (ramfs, 0#64))
        (fun head => size.toNat - head.2.toNat)
        (fun head after reached turn => by
          have inside : head.2.toNat < size.toNat := (ramfsTurn_next turn).1
          have further := advances head after reached turn
          exact ⟨reached.tail turn, by omega⟩)
        .refl
    have bound := size.isLt
    have nothing : (0#64 : U64).toNat = 0 := rfl
    exact ⟨heads, result, ends, ramfsParseEntries_of_ends ends _ (by dsimp only at short; omega)⟩

/-- An entry `./` of size -512. -/
def stallingArchive : Memory := fun address =>
  ([charDot, charSlash] ++ List.replicate 122 0#8 ++
    [charMinus, 0x31#8, charZero, charZero, charZero]).getD (address - 0x100000#64).toNat 0#8

def stallingRamfs : Ramfs := ⟨⟨fun _ => none, 0#64, []⟩, stallingArchive, 0#64, []⟩

theorem stallingRamfs_turn :
    ramfsTurn 0x100000#64 1024#64 0x10#64 (stallingRamfs, 0#64) = .next (stallingRamfs, 0#64) := by
  have named : stallingArchive (0x100000#64 + 0#64) ≠ 0#8 := by decide +kernel
  have skips : RamfsSkips stallingArchive (ramfsName stallingArchive (0x100000#64 + 0#64)) := by
    decide +kernel
  have stays : ramfsNext stallingArchive 0x100000#64 0#64 = 0#64 := by decide +kernel
  have inside : (0#64 : U64) < 1024#64 := by decide
  simp only [ramfsTurn, stallingRamfs, if_pos inside, if_neg named, if_pos skips, stays]

/-- The entry sends the loop back to where it is, for ever. -/
theorem ramfs_parse_stalls :
    ¬∃ heads result, Ends (ramfsTurn 0x100000#64 1024#64 0x10#64) (stallingRamfs, 0#64) heads
      result := by
  rintro ⟨heads, result, ends⟩
  refine not_ends (· = (stallingRamfs, 0#64)) ?_ rfl ends
  rintro head rfl
  exact ⟨_, stallingRamfs_turn, rfl⟩

end Nekonix
