import Nekonix.Mm.Vmm.MapRun

/-!
# Fresh pagemaps

`vmm_new_pagemap` gives a table whose lower half is clear and whose upper half
has the kernel's top-level entries, so the two trees share everything below
those entries.
-/

namespace Nekonix

open FlatMemory RadixTable Transition

variable {hhdmOffset : U64} {machine next : Machine} {kernel pagemap : Frame} {slots : Set Slot}

/-- What making a pagemap from the kernel's does. -/
structure NewPagemap (hhdmOffset : U64) (kernel : Frame) (machine : Machine) (pagemap : Frame)
    (next : Machine) : Prop where
  free : machine.free = next.free ++ [pagemap.address]
  max : next.stack.max = machine.stack.max
  usable : next.stack.Usable
  entries : ∀ index, tables hhdmOffset next.memory pagemap index =
    if 256 ≤ index.toNat then tables hhdmOffset machine.memory kernel index else 0#64
  outside : ∀ address, ¬pagemap.Holds hhdmOffset address →
    next.memory address = machine.memory address

theorem setWidth_slot {number : Nat} (bound : number < 512) :
    (BitVec.ofNat 9 number).setWidth 64 = BitVec.ofNat 64 number := by
  apply BitVec.eq_of_toNat_eq
  rw [BitVec.toNat_setWidth, BitVec.toNat_ofNat, BitVec.toNat_ofNat]
  omega

/-- The copy loop of `vmm_new_pagemap` over any part of the table. -/
theorem copyEntries_tables (different : kernel ≠ pagemap) (numbers : List Nat)
    (bound : ∀ number ∈ numbers, number < 512) (memory : Memory) :
    tables hhdmOffset
        (numbers.foldl
          (fun memory i =>
            writeEntry memory (pagemap.pointer hhdmOffset) (BitVec.ofNat 64 i)
              (readEntry memory (kernel.pointer hhdmOffset) (BitVec.ofNat 64 i)))
          memory) =
      fun table index =>
        if table = pagemap ∧ index.toNat ∈ numbers then tables hhdmOffset memory kernel index
        else tables hhdmOffset memory table index := by
  induction numbers generalizing memory with
  | nil => simp
  | cons number rest inductionHypothesis =>
      have small := bound number List.mem_cons_self
      have restBound : ∀ number ∈ rest, number < 512 :=
        fun number membership => bound number (List.mem_cons_of_mem _ membership)
      rw [List.foldl_cons, inductionHypothesis restBound, ← setWidth_slot small,
        tables_writeEntry, readEntry_pointer]
      funext table index
      have position : index = BitVec.ofNat 9 number ↔ index.toNat = number := by
        rw [← BitVec.toNat_inj, BitVec.toNat_ofNat]
        omega
      have source : write (tables hhdmOffset memory) pagemap (BitVec.ofNat 9 number)
          (tables hhdmOffset memory kernel (BitVec.ofNat 9 number)) kernel index =
            tables hhdmOffset memory kernel index := by
        apply write_other
        exact fun here => different here.1
      rw [source]
      by_cases inTable : table = pagemap
      · subst inTable
        by_cases inRest : index.toNat ∈ rest
        · simp [inRest]
        · by_cases here : index.toNat = number
          · have there := position.mpr here
            rw [if_neg (by simp [inRest]), if_pos (by simp [here]), there, write_same]
          · have elsewhere : ¬(table = table ∧ index = BitVec.ofNat 9 number) :=
              fun same => here (position.mp same.2)
            rw [if_neg (by simp [inRest]), if_neg (by simp [here, inRest]), write_other elsewhere]
      · have elsewhere : ¬(table = pagemap ∧ index = BitVec.ofNat 9 number) :=
          fun same => inTable same.1
        simp [inTable, write_other elsewhere]

theorem copyEntries_outside (numbers : List Nat) (bound : ∀ number ∈ numbers, number < 512)
    (memory : Memory) {source address : U64} (outside : ¬pagemap.Holds hhdmOffset address) :
    numbers.foldl
        (fun memory i =>
          writeEntry memory (pagemap.pointer hhdmOffset) (BitVec.ofNat 64 i)
            (readEntry memory source (BitVec.ofNat 64 i)))
        memory address =
      memory address := by
  induction numbers generalizing memory with
  | nil => rfl
  | cons number rest inductionHypothesis =>
      have small := bound number List.mem_cons_self
      rw [List.foldl_cons, inductionHypothesis
        (fun number membership => bound number (List.mem_cons_of_mem _ membership)),
        ← setWidth_slot small]
      exact writeEntry_outside outside

theorem vmmNewPagemap_spec (hhdmOffset : U64) (usable : machine.stack.Usable)
    (available : machine.free ≠ []) (kernelTaken : kernel.address ∉ machine.free)
    (nonnull : (vmmNewPagemap hhdmOffset (kernel.pointer hhdmOffset) machine).1 ≠ 0#64) :
    ∃ pagemap : Frame,
      (vmmNewPagemap hhdmOffset (kernel.pointer hhdmOffset) machine).1 =
        pagemap.pointer hhdmOffset ∧
      NewPagemap hhdmOffset kernel machine pagemap
        (vmmNewPagemap hhdmOffset (kernel.pointer hhdmOffset) machine).2 := by
  have requested := pmmRequestPage_spec hhdmOffset available
  obtain ⟨pagemap, -, isFrame, -⟩ := requested.frame usable
  have different : kernel ≠ pagemap := by
    rintro rfl
    apply kernelTaken
    rw [requested.free, isFrame]
    simp
  have upper : ∀ number ∈ List.range' 256 256, number < 512 := by
    intro number membership
    rw [List.mem_range'_1] at membership
    omega
  have made : pagemap.pointer hhdmOffset ≠ 0#64 := by
    intro null
    apply nonnull
    rw [Frame.pointer, ← isFrame] at null
    simp [vmmNewPagemap, null]
  have result : vmmNewPagemap hhdmOffset (kernel.pointer hhdmOffset) machine =
      (pagemap.pointer hhdmOffset,
        { (pmmRequestPage hhdmOffset machine).2 with
          memory := copyKernelEntries (memset (pmmRequestPage hhdmOffset machine).2.memory
            (pagemap.pointer hhdmOffset) 0#8 4096) (pagemap.pointer hhdmOffset)
            (kernel.pointer hhdmOffset) }) := by
    rw [Frame.pointer, ← isFrame] at made
    simp [vmmNewPagemap, Frame.pointer, ← isFrame, made]
  have cleared : tables hhdmOffset (memset (pmmRequestPage hhdmOffset machine).2.memory
      (pagemap.pointer hhdmOffset) 0#8 4096) =
        blank (tables hhdmOffset machine.memory) pagemap 0#64 := by
    rw [memset_eq_fill _ _ _ (by decide), tables_fill, tables_request requested isFrame]
    funext table index
    by_cases inPagemap : table = pagemap <;> simp [blank, inPagemap]
  rw [result]
  refine ⟨pagemap, rfl, ?_⟩
  refine
    { free := ?free
      max := requested.max
      usable := requested.usable usable
      entries := ?entries
      outside := ?outside }
  case free =>
    rw [requested.free, isFrame]
  case entries =>
    intro index
    have bound := index.isLt
    dsimp only
    rw [copyKernelEntries, copyEntries_tables different _ upper, cleared]
    have member : index.toNat ∈ List.range' 256 256 ↔ 256 ≤ index.toNat := by
      rw [List.mem_range'_1]
      omega
    simp [member, blank, different]
  case outside =>
    intro address outside
    dsimp only
    rw [copyKernelEntries, copyEntries_outside _ upper _ outside,
      memset_eq_fill _ _ _ (by decide), fill_outside outside]
    exact requested.outside isFrame outside

/-- Without a pagemap the call has taken a page. -/
theorem vmmNewPagemap_null {kernelPagemap : U64}
    (null : (vmmNewPagemap hhdmOffset kernelPagemap machine).1 = 0#64) :
    (vmmNewPagemap hhdmOffset kernelPagemap machine).2 = (pmmRequestPage hhdmOffset machine).2 := by
  unfold vmmNewPagemap at *
  dsimp only at *
  split at null
  next isNull => rw [if_pos isNull]
  next notNull => exact (notNull null).elim

theorem vmmNewPagemap_made {address : U64} (usable : machine.stack.Usable)
    (available : machine.free ≠ []) (kernelTaken : kernel.address ∉ machine.free)
    (made : vmmNewPagemap hhdmOffset (kernel.pointer hhdmOffset) machine = (address, next))
    (nonnull : address ≠ 0#64) :
    ∃ pagemap : Frame, address = pagemap.pointer hhdmOffset ∧
      NewPagemap hhdmOffset kernel machine pagemap next := by
  have spec := vmmNewPagemap_spec hhdmOffset usable available kernelTaken
  rw [made] at spec
  exact spec nonnull

/-- Where frames are at their physical addresses a free frame is enough. -/
theorem vmmNewPagemap_identity (usable : machine.stack.Usable) (available : machine.free ≠ [])
    (kernelTaken : kernel.address ∉ machine.free) :
    ∃ (pagemap : Frame) (next : Machine),
      vmmNewPagemap 0#64 (kernel.pointer 0#64) machine = (pagemap.pointer 0#64, next) ∧
      pagemap.pointer 0#64 ≠ 0#64 ∧ NewPagemap 0#64 kernel machine pagemap next := by
  have requested := pmmRequestPage_spec 0#64 available
  obtain ⟨frame, nonzero, isFrame, -⟩ := requested.frame usable
  have pageNonnull : higherHalf 0#64 (pmmRequestPage 0#64 machine).1 ≠ 0#64 := by
    intro null
    apply nonzero
    rw [isFrame, higherHalf, BitVec.add_zero] at null
    exact Frame.address_inj.mp null
  have nonnull : (vmmNewPagemap 0#64 (kernel.pointer 0#64) machine).1 ≠ 0#64 := by
    simp [vmmNewPagemap, pageNonnull]
  obtain ⟨pagemap, isPagemap, made⟩ := vmmNewPagemap_spec 0#64 usable available kernelTaken nonnull
  rw [isPagemap] at nonnull
  exact ⟨pagemap, _, Prod.ext isPagemap rfl, nonnull, made⟩

/-- `virt` lies below a top-level entry that every new pagemap shares with the kernel's. -/
def SharesTables (hhdmOffset : U64) (memory : Memory) (kernel : Frame) (virt : U64) : Prop :=
  256 ≤ (slot4 virt).toNat ∧ pageFormat.present (tables hhdmOffset memory kernel (slot4 virt)) = true

instance (memory : Memory) (virt : U64) : Decidable (SharesTables hhdmOffset memory kernel virt) :=
  inferInstanceAs (Decidable (_ ∧ _))

theorem sharesTables_of_leafEntry {memory : Memory} {virt entry : U64}
    (upper : 256 ≤ (slot4 virt).toNat)
    (leaf : leafEntry hhdmOffset memory kernel virt = some entry) :
    SharesTables hhdmOffset memory kernel virt := by
  refine ⟨upper, ?_⟩
  obtain ⟨table, reached, -⟩ := Option.map_eq_some_iff.mp leaf
  by_contra absent
  rw [tablePath, follow_cons, next_eq_none_iff.mpr (Bool.eq_false_of_not_eq_true absent)] at reached
  cases reached

namespace NewPagemap

variable {path : List Slot} {index : Slot} {virt : U64} {finish : Machine}
  {mappings : List Mapping}

theorem sameTables (made : NewPagemap hhdmOffset kernel machine pagemap next)
    (space : AddressSpace hhdmOffset machine kernel slots) :
    SameTables hhdmOffset kernel slots machine.memory next.memory := by
  refine .of_frame pagemap ?_ made.outside
  intro path membership reached
  apply space.apart path membership pagemap reached
  rw [made.free]
  simp

theorem kernelSpace (made : NewPagemap hhdmOffset kernel machine pagemap next)
    (space : AddressSpace hhdmOffset machine kernel slots) :
    AddressSpace hhdmOffset next kernel slots := by
  refine (made.sameTables space).space space ?_
  intro page membership
  rw [made.free]
  exact List.mem_append_left _ membership

theorem notFree (made : NewPagemap hhdmOffset kernel machine pagemap next)
    (usable : machine.stack.Usable) : pagemap.address ∉ next.free := by
  have nodup : machine.free.Nodup := usable.nodup
  rw [made.free] at nodup
  intro stillFree
  exact (List.nodup_append.mp nodup).2.2 _ stillFree _ (by simp) rfl

/-- Below its upper half a fresh pagemap has the kernel's tables, and below its
lower half none. -/
theorem follow_pagemap (made : NewPagemap hhdmOffset kernel machine pagemap next)
    (space : AddressSpace hhdmOffset machine kernel Set.univ)
    (membership : index :: path ∈ within (Set.univ : Set Slot)) :
    follow pageFormat (tables hhdmOffset next.memory) pagemap (index :: path) =
      if 256 ≤ index.toNat then
        follow pageFormat (tables hhdmOffset machine.memory) kernel (index :: path)
      else none := by
  have same := made.sameTables space
  have root : tables hhdmOffset next.memory kernel = tables hhdmOffset machine.memory kernel :=
    same.tables_eq nil_mem_within rfl
  split_ifs with upper
  · have entry : tables hhdmOffset next.memory pagemap index =
        tables hhdmOffset next.memory kernel index := by
      rw [made.entries, if_pos upper, root]
    rw [← same.follow membership, follow_cons, follow_cons]
    simp only [RadixTable.next, entry]
  · rw [follow_cons, next_eq_none_iff.mpr]
    · rfl
    · rw [made.entries, if_neg upper]
      rfl

theorem space (made : NewPagemap hhdmOffset kernel machine pagemap next)
    (usable : machine.stack.Usable) (space : AddressSpace hhdmOffset machine kernel Set.univ) :
    AddressSpace hhdmOffset next pagemap Set.univ := by
  have wasFree : pagemap.address ∈ machine.free := by
    rw [made.free]
    simp
  have below : ∀ index path table, index :: path ∈ within (Set.univ : Set Slot) →
      follow pageFormat (tables hhdmOffset next.memory) pagemap (index :: path) = some table →
      follow pageFormat (tables hhdmOffset machine.memory) kernel (index :: path) =
        some table := by
    intro index path table membership reached
    rw [made.follow_pagemap space membership] at reached
    split_ifs at reached
    exact reached
  have notRoot : ∀ index path, index :: path ∈ within (Set.univ : Set Slot) →
      follow pageFormat (tables hhdmOffset next.memory) pagemap (index :: path) ≠
        some pagemap := by
    intro index path membership reached
    exact space.apart _ membership pagemap (below index path pagemap membership reached) wasFree
  constructor
  · intro first second table firstIn secondIn firstReached secondReached
    cases first with
    | nil =>
        cases firstReached
        cases second with
        | nil => rfl
        | cons index path => exact (notRoot index path secondIn secondReached).elim
    | cons index path =>
        cases second with
        | nil =>
            cases secondReached
            exact (notRoot index path firstIn firstReached).elim
        | cons other rest =>
            exact space.tree _ _ table firstIn secondIn (below _ _ table firstIn firstReached)
              (below _ _ table secondIn secondReached)
  · intro path membership table reached
    cases path with
    | nil =>
        cases reached
        exact made.notFree usable
    | cons index rest =>
        intro stillFree
        apply space.apart _ membership table (below _ _ table membership reached)
        rw [made.free]
        exact List.mem_append_left _ stillFree

theorem leafEntry_pagemap (made : NewPagemap hhdmOffset kernel machine pagemap next)
    (space : AddressSpace hhdmOffset machine kernel Set.univ)
    (upper : 256 ≤ (slot4 virt).toNat) :
    leafEntry hhdmOffset next.memory pagemap virt =
      leafEntry hhdmOffset machine.memory kernel virt := by
  have membership : tablePath virt ∈ within Set.univ := tablePath_mem_within (Set.mem_univ _)
  have shared := made.follow_pagemap space membership
  rw [if_pos upper] at shared
  unfold leafEntry entryAt tablePath
  rw [shared]
  cases reached : follow pageFormat (tables hhdmOffset machine.memory) kernel
      [slot4 virt, slot3 virt, slot2 virt] with
  | none => rw [Option.map_none, Option.map_none]
  | some table =>
      rw [Option.map_some, Option.map_some, (made.sameTables space).tables_eq membership reached]

/-- The slots whose kernel tables no other pagemap has. -/
def lowerHalf : Set Slot := {index | index.toNat < 256}

/-- Mappings in a fresh pagemap leave the kernel's top-level table and the tables
of its lower half alone. -/
theorem lowerTables (made : NewPagemap hhdmOffset kernel machine pagemap next)
    (space : AddressSpace hhdmOffset machine kernel Set.univ)
    (run : MapRun hhdmOffset pagemap Set.univ next mappings finish) :
    SameTables hhdmOffset kernel lowerHalf machine.memory finish.memory := by
  intro path pathIn table reached address inTable
  have membership : path ∈ within Set.univ := ⟨pathIn.1, fun _ _ => Set.mem_univ _⟩
  have taken : table.address ∉ machine.free := space.apart path membership table reached
  have notPagemap : ¬pagemap.Holds hhdmOffset address := by
    intro inPagemap
    apply taken
    rw [inTable.unique inPagemap, made.free]
    simp
  rw [← made.outside address notPagemap]
  apply run.outside
  · intro frame frameTaken inFrame
    apply taken
    rw [inTable.unique inFrame, made.free, run.free]
    simp only [List.mem_append, List.mem_map, List.mem_reverse]
    exact Or.inl (Or.inr ⟨frame, frameTaken, rfl⟩)
  · intro other otherIn last lastReached inLast
    have same := inTable.unique inLast
    subst same
    cases other with
    | nil =>
        cases lastReached
        exact notPagemap inLast
    | cons index rest =>
        rw [made.follow_pagemap space otherIn] at lastReached
        split_ifs at lastReached with upper
        have samePath := space.tree _ _ table membership otherIn reached lastReached
        subst samePath
        have lower : index.toNat < 256 := pathIn.2 index rfl
        exact absurd upper (Nat.not_le.mpr lower)

/-- What mappings in a fresh pagemap do to the kernel's leaves. -/
theorem kernelLeaf (made : NewPagemap hhdmOffset kernel machine pagemap next)
    (space : AddressSpace hhdmOffset machine kernel Set.univ)
    (run : MapRun hhdmOffset pagemap Set.univ next mappings finish) (virt : U64) :
    (leafEntry hhdmOffset finish.memory kernel virt).getD 0#64 =
      if SharesTables hhdmOffset machine.memory kernel virt then
        ((lastAt MapCall.page (mappings.map Mapping.call) (pageNumber virt)).map
          MapCall.entry).getD ((leafEntry hhdmOffset machine.memory kernel virt).getD 0#64)
      else (leafEntry hhdmOffset machine.memory kernel virt).getD 0#64 := by
  have lower := made.lowerTables space run
  have rootEntries : tables hhdmOffset finish.memory kernel =
      tables hhdmOffset machine.memory kernel := lower.tables_eq nil_mem_within rfl
  by_cases upper : 256 ≤ (slot4 virt).toNat
  · by_cases present : pageFormat.present (tables hhdmOffset machine.memory kernel
        (slot4 virt)) = true
    · have shares : SharesTables hhdmOffset machine.memory kernel virt := ⟨upper, present⟩
      have entry : tables hhdmOffset next.memory pagemap (slot4 virt) =
          tables hhdmOffset machine.memory kernel (slot4 virt) := by
        rw [made.entries, if_pos upper]
      have linked : linkEntry hhdmOffset next.memory pagemap [] (slot4 virt) =
          some (tables hhdmOffset machine.memory kernel (slot4 virt)) := by
        rw [linkEntry, link_of_follow rfl, entry, if_pos present]
      have path4 : [] ++ [slot4 virt] ∈ within Set.univ := ⟨by simp, by simp⟩
      have kept := run.linkKept path4 linked
      have finishEntry : tables hhdmOffset finish.memory pagemap (slot4 virt) =
          tables hhdmOffset finish.memory kernel (slot4 virt) := by
        rw [rootEntries]
        rw [linkEntry, link_eq_some_iff] at kept
        exact Option.some.inj kept.1
      have shared : leafEntry hhdmOffset finish.memory kernel virt =
          leafEntry hhdmOffset finish.memory pagemap virt := by
        unfold leafEntry entryAt tablePath
        simp only [follow_cons, RadixTable.next, finishEntry]
      rw [if_pos shares, shared, run.leaf (Set.mem_univ _), made.leafEntry_pagemap space upper]
    · have apart : ¬SharesTables hhdmOffset machine.memory kernel virt :=
        fun shares => present shares.2
      have absent := Bool.eq_false_of_not_eq_true present
      rw [if_neg apart]
      unfold leafEntry entryAt tablePath
      simp only [follow_cons]
      rw [next_eq_none_iff.mpr absent, next_eq_none_iff.mpr (by rw [rootEntries]; exact absent)]
      simp only [Option.bind_none, Option.map_none]
  · have apart : ¬SharesTables hhdmOffset machine.memory kernel virt :=
      fun shares => upper shares.1
    have start : slot4 virt ∈ lowerHalf := Nat.lt_of_not_le upper
    rw [if_neg apart, lower.leafEntry start]

end NewPagemap

end Nekonix
