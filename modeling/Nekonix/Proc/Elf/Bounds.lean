import Nekonix.Library.Loop
import Nekonix.Mm.Pmm.Init
import Nekonix.Proc.Elf.Image

/-!
# The bounds of `elf_load`

Sums and differences of unchecked header fields bound the loops and the copies.
Both ends of a segment are multiples of the page size, so the page loop meets its
end exactly, and what is copied is cut to what is left of the segment.
-/

namespace Nekonix

open Loop

variable {hhdmOffset data pagemap ph : U64} {machine : Machine} {header : ElfProgramHeader}

/-! What goes into a page -/

/-- Bytes of the file, or zeros. -/
inductive PageFill where
  | copy (fileOffset toCopy : U64)
  | clear

/-- What `elf_load` does with a page once it is mapped. -/
def elfPageFill (memory : Memory) (ph offset vaddrStart addr : U64) : PageFill :=
  let fileOffset := offset + (addr - vaddrStart)
  let fileEnd := offset + (readElfProgramHeader memory ph).pFilesz
  if fileOffset < fileEnd then
    .copy fileOffset (if fileOffset + pageSize > fileEnd then fileEnd - fileOffset else pageSize)
  else
    .clear

def PageFill.apply (memory : Memory) (data dest : U64) : PageFill → Memory
  | .copy fileOffset toCopy => memcpy memory dest (data + fileOffset) toCopy.toNat
  | .clear => memset memory dest 0#8 4096

/-- A `memcpy` of at least a byte and at most a page. -/
def PageFill.Bounded : PageFill → Prop
  | .copy _ toCopy => 1 ≤ toCopy.toNat ∧ toCopy.toNat ≤ 4096
  | .clear => True

theorem elfFillPage_eq (memory : Memory) (data ph offset vaddrStart addr phys hhdmOffset : U64) :
    elfFillPage memory data ph offset vaddrStart addr phys hhdmOffset =
      (elfPageFill memory ph offset vaddrStart addr).apply memory data
        (higherHalf hhdmOffset phys) := by
  unfold elfFillPage elfPageFill
  dsimp only
  split_ifs <;> rfl

theorem elfPageFill_bounded (memory : Memory) (ph offset vaddrStart addr : U64) :
    (elfPageFill memory ph offset vaddrStart addr).Bounded := by
  unfold elfPageFill
  dsimp only
  generalize offset + (addr - vaddrStart) = fileOffset
  generalize offset + (readElfProgramHeader memory ph).pFilesz = fileEnd
  split_ifs with inFile last
  · unfold PageFill.Bounded pageSize at *
    bv_omega
  · exact ⟨by decide, by decide⟩
  · trivial

/-! The page loop -/

/-- One turn of the page loop, from the state and the page it begins with. -/
def pageTurn (hhdmOffset data pagemap ph : U64) (header : ElfProgramHeader)
    (head : Machine × U64) : Turn (Machine × U64) (Bool × Machine) :=
  if head.2 < header.vaddrEnd then
    let (loaded, machine) := elfLoadPage hhdmOffset data pagemap ph header head.1 head.2
    if loaded then .next (machine, head.2 + pageSize) else .leave (false, machine)
  else
    .leave (true, head.1)

theorem pageTurn_next {head next : Machine × U64}
    (turn : pageTurn hhdmOffset data pagemap ph header head = .next next) :
    head.2 < header.vaddrEnd ∧
      elfLoadPage hhdmOffset data pagemap ph header head.1 head.2 = (true, next.1) ∧
      next.2 = head.2 + pageSize := by
  unfold pageTurn at turn
  split_ifs at turn with inside
  rcases loading : elfLoadPage hhdmOffset data pagemap ph header head.1 head.2 with ⟨loaded, after⟩
  rw [loading] at turn
  cases loaded with
  | false => cases turn
  | true =>
      cases turn
      exact ⟨inside, rfl, rfl⟩

theorem pageTurn_leave {head : Machine × U64} {result : Bool × Machine}
    (turn : pageTurn hhdmOffset data pagemap ph header head = .leave result) :
    (¬head.2 < header.vaddrEnd ∧ result = (true, head.1)) ∨
      (head.2 < header.vaddrEnd ∧ result.1 = false ∧
        elfLoadPage hhdmOffset data pagemap ph header head.1 head.2 = result) := by
  unfold pageTurn at turn
  split_ifs at turn with inside
  · rcases loading : elfLoadPage hhdmOffset data pagemap ph header head.1 head.2 with
      ⟨loaded, after⟩
    rw [loading] at turn
    cases loaded with
    | false =>
        cases turn
        exact .inr ⟨inside, rfl, rfl⟩
    | true => cases turn
  · cases turn
    exact .inl ⟨inside, rfl⟩

/-- A page that begins at a multiple of the page size below the end does not reach past it. -/
theorem ElfProgramHeader.next_page (header : ElfProgramHeader) {addr : U64}
    (aligned : 4096 ∣ addr.toNat) (inside : addr < header.vaddrEnd) :
    (addr + pageSize).toNat = addr.toNat + 4096 ∧
      (addr + pageSize).toNat ≤ header.vaddrEnd.toNat := by
  have endAligned : 4096 ∣ header.vaddrEnd.toNat := alignUp_dvd _
  have bound := header.vaddrEnd.isLt
  have below : addr.toNat < header.vaddrEnd.toNat := inside
  have exactly : (addr + pageSize).toNat = addr.toNat + 4096 := by
    rw [BitVec.toNat_add, pageSize, BitVec.toNat_ofNat]
    omega
  omega

theorem elfLoadPage_failed {addr : U64} {next : Machine}
    (failed : elfLoadPage hhdmOffset data pagemap ph header machine addr = (false, next)) :
    (pmmRequestPage hhdmOffset machine).1 = 0#64 := by
  unfold elfLoadPage at failed
  dsimp only at failed
  split_ifs at failed with empty
  · exact empty
  · cases failed

/-- The frame just requested is the one that is filled. -/
theorem elfLoadPage_fills {addr : U64} {next : Machine}
    (loaded : elfLoadPage hhdmOffset data pagemap ph header machine addr = (true, next)) :
    ∃ phys requested, pmmRequestPage hhdmOffset machine = (phys, requested) ∧ phys ≠ 0#64 ∧
      ∃ fill : PageFill, fill.Bounded ∧
        next.memory = fill.apply
          (vmmMap hhdmOffset requested pagemap addr phys header.flags).memory data
          (higherHalf hhdmOffset phys) := by
  rcases request : pmmRequestPage hhdmOffset machine with ⟨phys, requested⟩
  rw [elfLoadPage, request] at loaded
  dsimp only at loaded
  split_ifs at loaded with empty
  · cases loaded
  · cases loaded
    refine ⟨phys, requested, rfl, empty,
      elfPageFill (vmmMap hhdmOffset requested pagemap addr phys header.flags).memory ph
        header.pOffset header.vaddrStart addr, elfPageFill_bounded _ _ _ _ _, ?_⟩
    exact elfFillPage_eq _ _ _ _ _ _ _ _

variable {head : Machine × U64} {heads : List (Machine × U64)} {result : Bool × Machine}

/-- Every turn begins a page further, and none past the end. -/
theorem pageTurns_address (aligned : 4096 ∣ head.2.toNat)
    (ends : Ends (pageTurn hhdmOffset data pagemap ph header) head heads result) :
    ∀ k later, heads[k]? = some later →
      later.2.toNat = head.2.toNat + 4096 * k ∧
      later.2.toNat ≤ max head.2.toNat header.vaddrEnd.toNat := by
  induction ends with
  | leave =>
      intro k later found
      cases k with
      | zero =>
          cases found
          exact ⟨rfl, Nat.le_max_left _ _⟩
      | succ k => cases found
  | @turn state next heads result turn _ inductionHypothesis =>
      intro k later found
      obtain ⟨inside, -, further⟩ := pageTurn_next turn
      obtain ⟨exactly, below⟩ := header.next_page aligned inside
      rw [← further] at exactly below
      cases k with
      | zero =>
          cases found
          exact ⟨rfl, Nat.le_max_left _ _⟩
      | succ k =>
          obtain ⟨address, limit⟩ := inductionHypothesis (by omega) k later found
          constructor <;> omega

/-- All pages have a turn, or the last turn found no frame. -/
theorem pageTurns_count (aligned : 4096 ∣ head.2.toNat)
    (ends : Ends (pageTurn hhdmOffset data pagemap ph header) head heads result) :
    (result.1 = true →
      heads.length = (header.vaddrEnd.toNat - head.2.toNat) / 4096 + 1) ∧
    (result.1 = false →
      heads.length ≤ (header.vaddrEnd.toNat - head.2.toNat) / 4096 ∧
      ∃ last, heads.getLast? = some last ∧ (pmmRequestPage hhdmOffset last.1).1 = 0#64) := by
  have endAligned : 4096 ∣ header.vaddrEnd.toNat := alignUp_dvd _
  induction ends with
  | @leave state result turn =>
      rcases pageTurn_leave turn with ⟨outside, rfl⟩ | ⟨inside, failed, loading⟩
      · have past : ¬state.2.toNat < header.vaddrEnd.toNat := outside
        refine ⟨fun _ => ?_, fun failed => nomatch failed⟩
        rw [List.length_singleton]
        omega
      · have below : state.2.toNat < header.vaddrEnd.toNat := inside
        refine ⟨fun loaded => ?_, fun _ => ⟨?_, state, rfl, ?_⟩⟩
        · rw [failed] at loaded
          cases loaded
        · rw [List.length_singleton]
          omega
        · obtain ⟨_, next⟩ := result
          cases failed
          exact elfLoadPage_failed loading
  | @turn state next heads result turn _ inductionHypothesis =>
      obtain ⟨inside, -, further⟩ := pageTurn_next turn
      obtain ⟨exactly, below⟩ := header.next_page aligned inside
      rw [← further] at exactly below
      obtain ⟨complete, early⟩ := inductionHypothesis (by omega)
      rw [List.length_cons]
      constructor
      · intro loaded
        have count := complete loaded
        omega
      · intro failed
        obtain ⟨count, last, isLast, empty⟩ := early failed
        refine ⟨by omega, last, ?_, empty⟩
        rw [List.getLast?_cons, isLast]
        rfl

/-- The fuel of the page loop does not run out. -/
theorem elfLoadPages_of_ends
    (ends : Ends (pageTurn hhdmOffset data pagemap ph header) head heads result) :
    ∀ fuel, heads.length ≤ fuel →
      elfLoadPages hhdmOffset data pagemap ph header fuel head.1 head.2 = result := by
  induction ends with
  | @leave state result turn =>
      intro fuel enough
      cases fuel with
      | zero => cases enough
      | succ fuel =>
          rcases pageTurn_leave turn with ⟨outside, rfl⟩ | ⟨inside, failed, loading⟩
          · rw [elfLoadPages, if_neg outside]
          · obtain ⟨_, next⟩ := result
            cases failed
            rw [elfLoadPages, if_pos inside, loading]
            rfl
  | @turn state next heads result turn _ inductionHypothesis =>
      intro fuel enough
      cases fuel with
      | zero => cases enough
      | succ fuel =>
          obtain ⟨inside, loaded, further⟩ := pageTurn_next turn
          rw [elfLoadPages, if_pos inside, loaded, ← further]
          exact inductionHypothesis fuel (Nat.le_of_succ_le_succ enough)

/-- What the page loop of a segment does. -/
structure PagesInBounds (hhdmOffset data pagemap ph : U64) (header : ElfProgramHeader)
    (heads : List (Machine × U64)) (result : Bool × Machine) : Prop where
  address : ∀ k head, heads[k]? = some head →
    head.2.toNat = header.vaddrStart.toNat + 4096 * k
  noWrap : ∀ head ∈ heads,
    head.2.toNat ≤ max header.vaddrStart.toNat header.vaddrEnd.toNat
  complete : result.1 = true → heads.length = header.pageCount + 1
  early : result.1 = false → heads.length ≤ header.pageCount ∧
    ∃ last, heads.getLast? = some last ∧ (pmmRequestPage hhdmOffset last.1).1 = 0#64
  filled : ∀ head ∈ heads, ∀ next,
    pageTurn hhdmOffset data pagemap ph header head = .next next →
    ∃ phys requested, pmmRequestPage hhdmOffset head.1 = (phys, requested) ∧ phys ≠ 0#64 ∧
      ∃ fill : PageFill, fill.Bounded ∧
        next.1.memory = fill.apply
          (vmmMap hhdmOffset requested pagemap head.2 phys header.flags).memory data
          (higherHalf hhdmOffset phys)

theorem ElfProgramHeader.vaddrStart_dvd (header : ElfProgramHeader) :
    4096 ∣ header.vaddrStart.toNat := by
  rw [header.vaddrStart_toNat]
  exact Nat.dvd_mul_left _ _

theorem pageTurns_end (hhdmOffset data pagemap ph : U64) (header : ElfProgramHeader)
    (machine : Machine) :
    ∃ heads result,
      Ends (pageTurn hhdmOffset data pagemap ph header) (machine, header.vaddrStart) heads result ∧
      elfLoadPages hhdmOffset data pagemap ph header (2 ^ 52) machine header.vaddrStart = result ∧
      PagesInBounds hhdmOffset data pagemap ph header heads result := by
  have aligned := header.vaddrStart_dvd
  have endAligned : 4096 ∣ header.vaddrEnd.toNat := alignUp_dvd _
  have bound := header.vaddrEnd.isLt
  obtain ⟨heads, result, ends, short⟩ :=
    @ends_of_measure _ _ (pageTurn hhdmOffset data pagemap ph header)
      (machine, header.vaddrStart) (fun head => 4096 ∣ head.2.toNat)
      (fun head => (header.vaddrEnd.toNat - head.2.toNat) / 4096)
      (fun state next aligned turn => by
        obtain ⟨inside, -, further⟩ := pageTurn_next turn
        obtain ⟨exactly, below⟩ := header.next_page aligned inside
        rw [further]
        constructor <;> omega)
      aligned
  have counted := pageTurns_count aligned ends
  refine ⟨heads, result, ends, elfLoadPages_of_ends ends _ (by dsimp only at short; omega), ?_⟩
  exact {
    address := fun k head found => (pageTurns_address aligned ends k head found).1
    noWrap := fun head membership => by
      obtain ⟨k, found⟩ := List.mem_iff_getElem?.mp membership
      exact (pageTurns_address aligned ends k head found).2
    complete := counted.1
    early := counted.2
    filled := fun head _ next turn => elfLoadPage_fills (pageTurn_next turn).2.1 }

/-! The segment loop -/

/-- One turn of the segment loop, from the state and the index it begins with. -/
def segmentTurn (hhdmOffset data pagemap ph : U64) (head : Machine × U16) :
    Turn (Machine × U16) (Bool × Machine) :=
  if head.2 < (readElfHeader head.1.memory data).ePhnum then
    let (loaded, machine) := elfLoadSegment hhdmOffset data pagemap head.1
      (ph + head.2.setWidth 64 * elfProgramHeaderSize)
    if loaded then .next (machine, head.2 + 1#16) else .leave (false, machine)
  else
    .leave (true, head.1)

theorem segmentTurn_next {head next : Machine × U16}
    (turn : segmentTurn hhdmOffset data pagemap ph head = .next next) :
    head.2 < (readElfHeader head.1.memory data).ePhnum ∧
      elfLoadSegment hhdmOffset data pagemap head.1
        (ph + head.2.setWidth 64 * elfProgramHeaderSize) = (true, next.1) ∧
      next.2 = head.2 + 1#16 := by
  unfold segmentTurn at turn
  split_ifs at turn with inside
  rcases loading : elfLoadSegment hhdmOffset data pagemap head.1
    (ph + head.2.setWidth 64 * elfProgramHeaderSize) with ⟨loaded, after⟩
  rw [loading] at turn
  cases loaded with
  | false => cases turn
  | true =>
      cases turn
      exact ⟨inside, rfl, rfl⟩

theorem segmentTurn_leave {head : Machine × U16} {result : Bool × Machine}
    (turn : segmentTurn hhdmOffset data pagemap ph head = .leave result) :
    (¬head.2 < (readElfHeader head.1.memory data).ePhnum ∧ result = (true, head.1)) ∨
      (head.2 < (readElfHeader head.1.memory data).ePhnum ∧ result.1 = false ∧
        elfLoadSegment hhdmOffset data pagemap head.1
          (ph + head.2.setWidth 64 * elfProgramHeaderSize) = result) := by
  unfold segmentTurn at turn
  split_ifs at turn with inside
  · rcases loading : elfLoadSegment hhdmOffset data pagemap head.1
      (ph + head.2.setWidth 64 * elfProgramHeaderSize) with ⟨loaded, after⟩
    rw [loading] at turn
    cases loaded with
    | false =>
        cases turn
        exact .inr ⟨inside, rfl, rfl⟩
    | true => cases turn
  · cases turn
    exact .inl ⟨inside, rfl⟩

theorem next_index {i phnum : U16} (inside : i < phnum) : (i + 1#16).toNat = i.toNat + 1 := by
  have below : i.toNat < phnum.toNat := inside
  have bound := phnum.isLt
  rw [BitVec.toNat_add, BitVec.toNat_ofNat]
  omega

/-- The fuel of the segment loop does not run out. -/
theorem elfLoadSegments_of_ends {head : Machine × U16} {heads : List (Machine × U16)}
    (ends : Ends (segmentTurn hhdmOffset data pagemap ph) head heads result) :
    ∀ fuel, heads.length ≤ fuel →
      elfLoadSegments hhdmOffset data pagemap ph fuel head.1 head.2 = result := by
  induction ends with
  | @leave state result turn =>
      intro fuel enough
      cases fuel with
      | zero => cases enough
      | succ fuel =>
          rcases segmentTurn_leave turn with ⟨outside, rfl⟩ | ⟨inside, failed, loading⟩
          · rw [elfLoadSegments, if_neg outside]
          · obtain ⟨_, next⟩ := result
            cases failed
            rw [elfLoadSegments, if_pos inside, loading]
            rfl
  | @turn state next heads result turn _ inductionHypothesis =>
      intro fuel enough
      cases fuel with
      | zero => cases enough
      | succ fuel =>
          obtain ⟨inside, loaded, further⟩ := segmentTurn_next turn
          rw [elfLoadSegments, if_pos inside, loaded, ← further]
          exact inductionHypothesis fuel (Nat.le_of_succ_le_succ enough)

theorem segmentTurns_end (hhdmOffset data pagemap ph : U64) (machine : Machine) :
    ∃ heads result,
      Ends (segmentTurn hhdmOffset data pagemap ph) (machine, 0#16) heads result ∧
      elfLoadSegments hhdmOffset data pagemap ph 65536 machine 0#16 = result := by
  obtain ⟨heads, result, ends, short⟩ :=
    @ends_of_measure _ _ (segmentTurn hhdmOffset data pagemap ph) (machine, 0#16)
      (fun _ => True) (fun head => 65535 - head.2.toNat)
      (fun state next _ turn => by
        obtain ⟨inside, -, further⟩ := segmentTurn_next turn
        have step := next_index inside
        have bound := next.2.isLt
        rw [← further] at step
        exact ⟨trivial, by omega⟩)
      trivial
  exact ⟨heads, result, ends, elfLoadSegments_of_ends ends _ short⟩

/-- `elf_load` rejects the file, or its loops end, and in each segment that is loaded the
page loop goes page by page to the segment's end, or to where no frame is left.  What is
written goes into the frame just requested, and is at least a byte and at most a page. -/
theorem elf_load_in_bounds (hhdmOffset data pagemap : U64) (machine : Machine) :
    ((readElfHeader machine.memory data).eMagic ≠ elfMagic ∨
        (readElfHeader machine.memory data).eClass ≠ 2#8) ∧
      elfLoad hhdmOffset machine data pagemap = (0#64, machine) ∨
    ∃ heads result,
      Ends (segmentTurn hhdmOffset data pagemap
        (data + (readElfHeader machine.memory data).ePhoff)) (machine, 0#16) heads result ∧
      elfLoad hhdmOffset machine data pagemap =
        (if result.1 then (readElfHeader result.2.memory data).eEntry else 0#64, result.2) ∧
      ∀ head ∈ heads, head.2 < (readElfHeader head.1.memory data).ePhnum →
        ∀ ph, ph = data + (readElfHeader machine.memory data).ePhoff +
            head.2.setWidth 64 * elfProgramHeaderSize →
          (readElfProgramHeader head.1.memory ph).pType = ptLoad →
          ∃ pages loaded,
            Ends (pageTurn hhdmOffset data pagemap ph (readElfProgramHeader head.1.memory ph))
              (head.1, (readElfProgramHeader head.1.memory ph).vaddrStart) pages loaded ∧
            elfLoadSegment hhdmOffset data pagemap head.1 ph = loaded ∧
            PagesInBounds hhdmOffset data pagemap ph (readElfProgramHeader head.1.memory ph)
              pages loaded := by
  by_cases magic : (readElfHeader machine.memory data).eMagic ≠ elfMagic
  · refine .inl ⟨.inl magic, ?_⟩
    rw [elfLoad, if_pos magic]
  by_cases is64 : (readElfHeader machine.memory data).eClass ≠ 2#8
  · refine .inl ⟨.inr is64, ?_⟩
    rw [elfLoad, if_neg magic, if_pos is64]
  obtain ⟨heads, result, ends, loading⟩ := segmentTurns_end hhdmOffset data pagemap
    (data + (readElfHeader machine.memory data).ePhoff) machine
  refine .inr ⟨heads, result, ends, ?_, ?_⟩
  · rw [elfLoad, if_neg magic, if_neg is64, loading]
    obtain ⟨_ | _, after⟩ := result <;> rfl
  · intro head _ _ ph _ load
    obtain ⟨pages, loaded, pagesEnd, same, bounds⟩ := pageTurns_end hhdmOffset data pagemap ph
      (readElfProgramHeader head.1.memory ph) head.1
    refine ⟨pages, loaded, pagesEnd, ?_, bounds⟩
    rw [elfLoadSegment, if_neg (not_not.mpr load)]
    exact same

end Nekonix
