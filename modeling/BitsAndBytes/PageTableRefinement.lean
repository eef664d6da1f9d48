import BitsAndBytes.PageTable

/-! # The virtual memory against a flat memory -/

namespace BitsAndBytes.PageTable

open OperationRuns FlatMemory Function List Option

variable {vm : Memory} {offset target : Nat}

def Maps (vm : Memory) (page frame : Nat) : Prop :=
  (vm.pageTable page).present ∧ (vm.pageTable page).frameNumber = frame

variable {other : Nat}

theorem Maps.frame_eq {page frame : Nat} (maps : Maps vm page frame)
    (mapsOther : Maps vm page other) : frame = other :=
  maps.2.symm.trans mapsOther.2

/-- Present pages have frames of their own, with the bytes of `memory`. -/
structure Represents (vm : Memory) (memory : Nat → UInt8) : Prop where
  frame_lt : ∀ {page frame}, Maps vm page frame → frame < frameCount
  distinct : ∀ {page other frame}, Maps vm page frame → Maps vm other frame → page = other
  contents : ∀ {page frame}, Maps vm page frame → ∀ offset < pageSize,
    vm.physicalMemory (frame * pageSize + offset) = memory (page * pageSize + offset)
  absent : ∀ {page}, (vm.pageTable page).present = false →
    ∀ offset < pageSize, memory (page * pageSize + offset) = 0
  unused : ∀ {frame}, frame < frameCount → (∀ page, ¬ Maps vm page frame) →
    ∀ offset < pageSize, vm.physicalMemory (frame * pageSize + offset) = 0
  disk_zero : ∀ address, vm.disk address = 0
  tlb_le : vm.tlbCount ≤ tlbSize
  tlb_maps : ∀ i < vm.tlbCount, Maps vm (vm.tlb i).pageNumber (vm.tlb i).frameNumber

theorem represents_initMemory : Represents (initMemory zeroedMemory) fun _ => 0 := by
  constructor <;> simp [initMemory, zeroedMemory, Maps]

/-- On a fault no used frame begins with a zero byte, and some frame is unused. -/
def FaultsFindFreeFrame (vm : Memory) (op : Operation) : Prop :=
  (vm.pageTable (op.address / pageSize)).present = false → (∀ page frame, Maps vm page frame →
      vm.physicalMemory (frame * pageSize) ≠ 0) ∧ ∃ frame < frameCount, ∀ page, ¬ Maps vm page frame

theorem cell_eq {frame otherOffset : Nat} (offsetLt : offset < pageSize)
    (otherLt : otherOffset < pageSize)
    (same : frame * pageSize + offset = other * pageSize + otherOffset) :
    frame = other ∧ offset = otherOffset := by
  simp only [pageSize] at offsetLt otherLt same
  omega

theorem page_mul_add_offset (address : Nat) :
    address / pageSize * pageSize + address % pageSize = address :=
  Nat.div_add_mod' address pageSize

theorem offset_lt (address : Nat) : address % pageSize < pageSize := Nat.mod_lt _ (by decide)

/-- The ways of `translate_address`: a hit, a walk, or a fault. -/
inductive Translates (vm : Memory) (page : Nat) : Memory → Nat → Prop
  | hit {frame} (found : searchTlb vm page = some frame) : Translates vm page vm frame
  | walk {frame} (missed : searchTlb vm page = none) (maps : Maps vm page frame) :
      Translates vm page (updateTlb vm page frame) frame
  | fault (missed : searchTlb vm page = none)
      (notPresent : (vm.pageTable page).present = false) :
      Translates vm page (updateTlb (loadPage vm page (freeFrame vm)) page (freeFrame vm))
        (freeFrame vm)

theorem exists_translates (vm : Memory) (address : Nat) :
    ∃ frame, (translateAddress vm address).2 = frame * pageSize + address % pageSize ∧
      Translates vm (address / pageSize) (translateAddress vm address).1 frame := by
  cases found : searchTlb vm (address / pageSize) with
  | some frame =>
    simp only [translateAddress, found]
    exact ⟨frame, rfl, .hit found⟩
  | none =>
    cases present : (vm.pageTable (address / pageSize)).present with
    | true =>
      simp only [translateAddress, found, present, if_true]
      exact ⟨_, rfl, .walk found ⟨present, rfl⟩⟩
    | false =>
      simp only [translateAddress, found, present, Bool.false_eq_true, if_false]
      exact ⟨_, rfl, .fault found present⟩

def formerIndex (vm : Memory) (i : Nat) : Nat :=
  if vm.tlbCount < tlbSize then i else i + 1

variable {page frame address : Nat} {op : Operation}

theorem updateTlb_cases (bounded : vm.tlbCount ≤ tlbSize) {i : Nat}
    (inside : i < (updateTlb vm page frame).tlbCount) :
    i + 1 = (updateTlb vm page frame).tlbCount ∧ (updateTlb vm page frame).tlb i = ⟨page, frame⟩ ∨
      formerIndex vm i < vm.tlbCount ∧
        (updateTlb vm page frame).tlb i = vm.tlb (formerIndex vm i) := by
  by_cases room : vm.tlbCount < tlbSize
  · simp only [updateTlb, formerIndex, room, if_true] at inside ⊢
    by_cases last : i = vm.tlbCount
    · subst last
      exact .inl ⟨rfl, update_self _ _ _⟩
    · exact .inr ⟨by omega, update_of_ne last _ _⟩
  · simp only [updateTlb, formerIndex, room, if_false] at inside ⊢
    by_cases last : i = tlbSize - 1
    · subst last
      exact .inl ⟨by simp only [tlbSize] at *; omega, update_self _ _ _⟩
    · refine .inr ⟨by omega, ?_⟩
      rw [update_of_ne last, if_pos (by omega)]

theorem updateTlb_le (bounded : vm.tlbCount ≤ tlbSize) (page frame : Nat) :
    (updateTlb vm page frame).tlbCount ≤ tlbSize := by
  rw [updateTlb]
  split
  · assumption
  · exact bounded

theorem maps_of_searchTlb
    (agrees : ∀ i < vm.tlbCount, Maps vm (vm.tlb i).pageNumber (vm.tlb i).frameNumber)
    (found : searchTlb vm page = some frame) : Maps vm page frame := by
  obtain ⟨i, member, chosen⟩ := exists_of_findSome?_eq_some found
  by_cases samePage : (vm.tlb i).pageNumber = page
  · simp only [samePage, if_true, some.injEq] at chosen
    have maps := agrees i (mem_range.mp member)
    rw [samePage, chosen] at maps
    exact maps
  · simp [samePage] at chosen

theorem maps_updateTlb : Maps (updateTlb vm page frame) other target ↔ Maps vm other target := by
  unfold updateTlb
  split <;> rfl

theorem maps_of_updateTlb (bounded : vm.tlbCount ≤ tlbSize)
    (agrees : ∀ i < vm.tlbCount, Maps vm (vm.tlb i).pageNumber (vm.tlb i).frameNumber)
    (maps : Maps vm page frame) :
    ∀ i < (updateTlb vm page frame).tlbCount,
      Maps (updateTlb vm page frame) ((updateTlb vm page frame).tlb i).pageNumber
        ((updateTlb vm page frame).tlb i).frameNumber := by
  intro i inside
  rw [maps_updateTlb]
  rcases updateTlb_cases bounded inside with ⟨-, isNew⟩ | ⟨formerLt, isFormer⟩
  · rw [isNew]
    exact maps
  · rw [isFormer]
    exact agrees _ formerLt

namespace Represents

variable {memory : Nat → UInt8}

theorem updateTlb (represents : Represents vm memory) (maps : Maps vm page frame) :
    Represents (PageTable.updateTlb vm page frame) memory := by
  have bounded := updateTlb_le represents.tlb_le page frame
  have agrees := maps_of_updateTlb represents.tlb_le represents.tlb_maps maps
  generalize updated : PageTable.updateTlb vm page frame = next at bounded agrees ⊢
  obtain ⟨tlb, tlbCount, rfl⟩ : ∃ tlb tlbCount,
      next = { vm with tlb := tlb, tlbCount := tlbCount } := by
    rw [← updated, PageTable.updateTlb]
    split
    · exact ⟨_, _, rfl⟩
    · exact ⟨_, _, rfl⟩
  exact ⟨represents.frame_lt, represents.distinct, represents.contents, represents.absent,
    represents.unused, represents.disk_zero, bounded, agrees⟩

theorem freeFrame_unused (represents : Represents vm memory)
    (marked : ∀ page frame, Maps vm page frame → vm.physicalMemory (frame * pageSize) ≠ 0)
    (someUnused : ∃ frame < frameCount, ∀ page, ¬ Maps vm page frame) :
    freeFrame vm < frameCount ∧ ∀ page, ¬ Maps vm page (freeFrame vm) := by
  obtain ⟨unusedFrame, unusedLt, unmapped⟩ := someUnused
  have zero := represents.unused unusedLt unmapped 0 (by decide)
  rw [Nat.add_zero] at zero
  cases found : (range frameCount).find? fun i =>
      vm.physicalMemory (i * pageSize) == 0 with
  | none =>
    rw [find?_eq_none] at found
    exact absurd (beq_iff_eq.mpr zero) (found unusedFrame (mem_range.mpr unusedLt))
  | some frame =>
    have first : vm.physicalMemory (frame * pageSize) = 0 := by
      simpa using find?_some found
    rw [freeFrame, found, getD_some]
    refine ⟨mem_range.mp (mem_of_find?_eq_some found), ?_⟩
    intro page maps
    exact marked page frame maps first

theorem maps_loadPage_self (vm : Memory) (page frame : Nat) :
    Maps (loadPage vm page frame) page frame := by
  simp [Maps, loadPage]

theorem maps_loadPage_of_ne (different : other ≠ page) :
    Maps (loadPage vm page frame) other target ↔ Maps vm other target := by
  simp [Maps, loadPage, update_of_ne different]

theorem cases_of_maps_loadPage (maps : Maps (loadPage vm page frame) other target) :
    other = page ∧ target = frame ∨ other ≠ page ∧ Maps vm other target := by
  by_cases same : other = page
  · subst same
    exact .inl ⟨rfl, maps.frame_eq (maps_loadPage_self vm other frame)⟩
  · exact .inr ⟨same, (maps_loadPage_of_ne same).mp maps⟩

theorem loadPage_in_frame (vm : Memory) (page frame : Nat) (offsetLt : offset < pageSize) :
    (loadPage vm page frame).physicalMemory (frame * pageSize + offset) =
      vm.disk (page * pageSize + offset) := by
  simp [loadPage, offsetLt]

theorem loadPage_elsewhere (vm : Memory) (page : Nat) (different : other ≠ frame)
    (offsetLt : offset < pageSize) :
    (loadPage vm page frame).physicalMemory (other * pageSize + offset) =
      vm.physicalMemory (other * pageSize + offset) := by
  have outside : ¬ (frame * pageSize ≤ other * pageSize + offset ∧
      other * pageSize + offset < frame * pageSize + pageSize) := by
    simp only [pageSize] at offsetLt ⊢
    omega
  simp only [loadPage, outside, if_false]

theorem ne_of_notPresent (notPresent : (vm.pageTable page).present = false)
    (maps : Maps vm other frame) : other ≠ page := by
  rintro rfl
  simp [Maps, notPresent] at maps

theorem load (represents : Represents vm memory) (notPresent : (vm.pageTable page).present = false)
    (frameLt : frame < frameCount) (unmapped : ∀ other, ¬ Maps vm other frame) :
    Represents (loadPage vm page frame) memory := by
  constructor
  · intro other target maps
    rcases cases_of_maps_loadPage maps with ⟨-, rfl⟩ | ⟨-, before⟩
    · exact frameLt
    · exact represents.frame_lt before
  · intro first second target firstMaps secondMaps
    rcases cases_of_maps_loadPage firstMaps with ⟨rfl, rfl⟩ | ⟨-, firstBefore⟩
    · rcases cases_of_maps_loadPage secondMaps with ⟨rfl, -⟩ | ⟨-, before⟩
      · rfl
      · exact absurd before (unmapped second)
    · rcases cases_of_maps_loadPage secondMaps with ⟨rfl, rfl⟩ | ⟨-, before⟩
      · exact absurd firstBefore (unmapped first)
      · exact represents.distinct firstBefore before
  · intro other target maps offset offsetLt
    rcases cases_of_maps_loadPage maps with ⟨rfl, rfl⟩ | ⟨-, before⟩
    · rw [loadPage_in_frame vm other target offsetLt, represents.disk_zero,
        represents.absent notPresent offset offsetLt]
    · have different : target ≠ frame := by
        rintro rfl
        exact unmapped other before
      rw [loadPage_elsewhere vm page different offsetLt]
      exact represents.contents before offset offsetLt
  · intro other otherAbsent offset offsetLt
    by_cases same : other = page
    · subst same
      exact represents.absent notPresent offset offsetLt
    · apply represents.absent _ offset offsetLt
      simpa [loadPage, update_of_ne same] using otherAbsent
  · intro other otherLt otherUnmapped offset offsetLt
    have different : other ≠ frame := by
      rintro rfl
      exact otherUnmapped page (maps_loadPage_self vm page other)
    rw [loadPage_elsewhere vm page different offsetLt]
    apply represents.unused otherLt _ offset offsetLt
    intro mapped maps
    exact otherUnmapped mapped ((maps_loadPage_of_ne (ne_of_notPresent notPresent maps)).mpr maps)
  · exact represents.disk_zero
  · exact represents.tlb_le
  · intro i indexLt
    have maps := represents.tlb_maps i indexLt
    exact (maps_loadPage_of_ne (ne_of_notPresent notPresent maps)).mpr maps

theorem translate (represents : Represents vm memory) (safe : FaultsFindFreeFrame vm op) :
    ∃ frame, (translateAddress vm op.address).2 = frame * pageSize + op.address % pageSize ∧
      Maps (translateAddress vm op.address).1 (op.address / pageSize) frame ∧
        Represents (translateAddress vm op.address).1 memory := by
  obtain ⟨frame, addressEq, translates⟩ := exists_translates vm op.address
  refine ⟨frame, addressEq, ?_⟩
  generalize (translateAddress vm op.address).1 = next at translates ⊢
  cases translates with
  | hit found => exact ⟨maps_of_searchTlb represents.tlb_maps found, represents⟩
  | walk missed maps => exact ⟨maps_updateTlb.mpr maps, represents.updateTlb maps⟩
  | fault missed notPresent =>
    obtain ⟨marked, someUnused⟩ := safe notPresent
    obtain ⟨frameLt, unmapped⟩ := represents.freeFrame_unused marked someUnused
    have loaded := represents.load notPresent frameLt unmapped
    have maps := maps_loadPage_self vm (op.address / pageSize) (freeFrame vm)
    exact ⟨maps_updateTlb.mpr maps, loaded.updateTlb maps⟩

def storeByte (vm : Memory) (page physicalAddress : Nat) (value : UInt8) : Memory :=
  { vm with
    physicalMemory := update vm.physicalMemory physicalAddress value
    pageTable := update vm.pageTable page
      { vm.pageTable page with dirty := true } }

theorem storeByte_physicalMemory (vm : Memory) (page physicalAddress : Nat)
    (value : UInt8) :
    (storeByte vm page physicalAddress value).physicalMemory =
      update vm.physicalMemory physicalAddress value := rfl

theorem maps_storeByte {physicalAddress : Nat} {value : UInt8} :
    Maps (storeByte vm page physicalAddress value) other target ↔ Maps vm other target := by
  by_cases same : other = page
  · subst same
    simp [Maps, storeByte]
  · simp [Maps, storeByte, update_of_ne same]

theorem storeByte_elsewhere (vm : Memory) (page address : Nat) (value : UInt8)
    (different : other ≠ frame) (offsetLt : offset < pageSize) :
    (storeByte vm page (frame * pageSize + address % pageSize)
      value).physicalMemory (other * pageSize + offset) =
        vm.physicalMemory (other * pageSize + offset) := by
  rw [storeByte_physicalMemory, update_of_ne]
  intro here
  exact different (cell_eq offsetLt (offset_lt address) here).1

theorem ne_address_of_page_ne (different : page ≠ address / pageSize)
    (offsetLt : offset < pageSize) :
    page * pageSize + offset ≠ address := by
  intro here
  rw [← page_mul_add_offset address] at here
  exact different (cell_eq offsetLt (offset_lt address) here).1

theorem write (represents : Represents vm memory) (maps : Maps vm (address / pageSize) frame)
    (value : UInt8) :
    Represents
      (storeByte vm (address / pageSize) (frame * pageSize + address % pageSize)
        value) (update memory address value) := by
  constructor
  · intro page target mapsAfter
    exact represents.frame_lt (maps_storeByte.mp mapsAfter)
  · intro page other target mapsAfter otherMaps
    exact represents.distinct (maps_storeByte.mp mapsAfter) (maps_storeByte.mp otherMaps)
  · intro page target mapsAfter offset offsetLt
    have mapsBefore := maps_storeByte.mp mapsAfter
    by_cases samePage : page = address / pageSize
    · subst samePage
      have sameFrame := mapsBefore.frame_eq maps
      subst sameFrame
      by_cases sameOffset : offset = address % pageSize
      · subst sameOffset
        rw [storeByte_physicalMemory, update_self, page_mul_add_offset, update_self]
      · have cellNe : target * pageSize + offset ≠
            target * pageSize + address % pageSize := by omega
        have addressNe : address / pageSize * pageSize + offset ≠ address := by
          have split := page_mul_add_offset address
          omega
        rw [storeByte_physicalMemory, update_of_ne cellNe, update_of_ne addressNe]
        exact represents.contents mapsBefore offset offsetLt
    · have different : target ≠ frame := by
        rintro rfl
        exact samePage (represents.distinct mapsBefore maps)
      rw [storeByte_elsewhere vm _ address value different offsetLt,
        update_of_ne (ne_address_of_page_ne samePage offsetLt)]
      exact represents.contents mapsBefore offset offsetLt
  · intro page pageAbsent offset offsetLt
    have different : page ≠ address / pageSize := by
      rintro rfl
      simp [storeByte, maps.1] at pageAbsent
    rw [update_of_ne (ne_address_of_page_ne different offsetLt)]
    apply represents.absent _ offset offsetLt
    simpa [storeByte, update_of_ne different] using pageAbsent
  · intro target targetLt unmapped offset offsetLt
    have different : target ≠ frame := by
      rintro rfl
      exact unmapped _ (maps_storeByte.mpr maps)
    rw [storeByte_elsewhere vm _ address value different offsetLt]
    apply represents.unused targetLt _ offset offsetLt
    intro page mapsBefore
    exact unmapped page (maps_storeByte.mpr mapsBefore)
  · exact represents.disk_zero
  · exact represents.tlb_le
  · intro i indexLt
    exact maps_storeByte.mpr (represents.tlb_maps i indexLt)

end Represents

theorem step_matched {memory : Nat → UInt8} (represents : Represents vm memory)
    (safe : FaultsFindFreeFrame vm op) :
    ∃ next, step vm op = some (next, (reads op).map memory) ∧
      Represents next (store written memory op) := by
  obtain ⟨frame, addressEq, maps, translated⟩ := represents.translate safe
  cases op with
  | write address value =>
    refine ⟨writeMemory vm address value, rfl, ?_⟩
    have stored := translated.write maps value
    rw [← addressEq] at stored
    exact stored
  | read address =>
    refine ⟨(readMemory vm address).1, ?_, translated⟩
    have byte := translated.contents maps _ (offset_lt address)
    rw [Operation.address] at addressEq byte
    rw [page_mul_add_offset, ← addressEq] at byte
    show some (_, some (readMemory vm address).2) = some (_, some (memory address))
    rw [← byte]
    rfl

/-- If an absent page finds an unused frame, and no used one looks free, reads are right. -/
theorem reads_return_latest_write_of_free_frames (ops : List Operation)
    (safe : Respects step FaultsFindFreeFrame (initMemory zeroedMemory) ops) :
    ∀ earlier address, earlier ++ [.read address] <+: ops →
      ∃ reached next, Reaches step (initMemory zeroedMemory) earlier reached ∧
        step reached (.read address) = some (next,
          some ((latestWrite written earlier address).getD 0)) := by
  intro earlier address within
  exact read_yields_latestWrite written reads Represents
    (fun represents safe => step_matched represents safe) safe represents_initMemory within rfl

theorem reads_return_latest_write_of_marked_page :
    Respects step FaultsFindFreeFrame (initMemory zeroedMemory)
        [.write 0 65, .read 4096, .read 0] ∧
      ∀ earlier address, earlier ++ [.read address] <+: [.write 0 65, .read 4096, .read 0] →
          ∃ reached next, Reaches step (initMemory zeroedMemory) earlier reached ∧
            step reached (.read address) = some (next,
              some ((latestWrite written earlier address).getD 0)) := by
  have safe : Respects step FaultsFindFreeFrame (initMemory zeroedMemory)
      [.write 0 65, .read 4096, .read 0] := by
    refine ⟨?_, fun next out stepEq => ⟨?_, fun last lastOut lastEq =>
      ⟨?_, fun _ _ _ => trivial⟩⟩⟩
    · intro _
      refine ⟨?_, 0, by decide, ?_⟩
      · rintro page frame ⟨present, -⟩
        cases present
      · rintro page ⟨present, -⟩
        cases present
    · intro _
      cases stepEq
      have table : (writeMemory (initMemory zeroedMemory) 0 65).pageTable =
          update (update (fun _ => ⟨0, false, false, false⟩) 0
            ⟨0, true, false, true⟩) 0 ⟨0, true, true, true⟩ := rfl
      have onlyZero : ∀ page frame,
          Maps (writeMemory (initMemory zeroedMemory) 0 65) page frame → frame = 0 := by
        intro page frame maps
        by_cases zero : page = 0
        · subst zero
          exact maps.2.symm
        · simp [Maps, table, zero] at maps
      refine ⟨?_, 1, by decide, ?_⟩
      · intro page frame maps
        have frameZero : frame = 0 := onlyZero page frame maps
        subst frameZero
        decide
      · intro page maps
        have impossible : 1 = 0 := onlyZero page 1 maps
        omega
    · intro absent
      cases stepEq
      have lastIs : (readMemory (writeMemory (initMemory zeroedMemory) 0 65)
          4096).1 = last := congrArg Prod.fst (some.inj lastEq)
      rw [← lastIs] at absent
      exact absurd absent (by decide +kernel)
  exact ⟨safe, reads_return_latest_write_of_free_frames _ safe⟩

theorem written_byte_is_lost_by_fault : ¬ ∀ earlier address,
        earlier ++ [.read address] <+: [.write 1 65, .read 4097, .read 1] →
          ∃ reached next, Reaches step (initMemory zeroedMemory) earlier reached ∧
            step reached (.read address) = some (next,
              some ((latestWrite written earlier address).getD 0)) := by
  intro always
  obtain ⟨reached, next, ⟨outs, runEq⟩, stepEq⟩ :=
    always [.write 1 65, .read 4097] 1 prefix_rfl
  have lost : (run step (initMemory zeroedMemory) [.write 1 65, .read 4097]).bind (fun last =>
        (step last.1 (.read 1)).map Prod.snd) = some (some 0) := by
    decide
  rw [runEq, bind_some, stepEq, map_some, some.injEq] at lost
  dsimp only at lost
  exact absurd lost (by decide)

end BitsAndBytes.PageTable
