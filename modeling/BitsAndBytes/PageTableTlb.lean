import BitsAndBytes.PageTableRefinement

/-! # The TLB of `pageTable.c` -/

namespace BitsAndBytes.PageTable

open OperationRuns

/-- The TLB agrees with the page table and holds no page twice. -/
structure TlbAgrees (vm : Memory) : Prop where
  count_le : vm.tlbCount ≤ tlbSize
  distinct : ∀ i < vm.tlbCount, ∀ j < vm.tlbCount,
    (vm.tlb i).pageNumber = (vm.tlb j).pageNumber → i = j
  maps : ∀ i < vm.tlbCount, Maps vm (vm.tlb i).pageNumber (vm.tlb i).frameNumber

theorem tlbAgrees_of_tlbCount_zero {vm : Memory} (empty : vm.tlbCount = 0) : TlbAgrees vm := by
  constructor
  · rw [empty]
    exact Nat.zero_le tlbSize
  · rw [empty]
    exact fun _ inside => absurd inside (Nat.not_lt_zero _)
  · rw [empty]
    exact fun _ inside => absurd inside (Nat.not_lt_zero _)

theorem searchTlb_eq_none {vm : Memory} {page : Nat} :
    searchTlb vm page = none ↔ ∀ i < vm.tlbCount, (vm.tlb i).pageNumber ≠ page := by
  simp [searchTlb, List.findSome?_eq_none_iff]

theorem formerIndex_injective (vm : Memory) : Function.Injective (formerIndex vm) := by
  intro i j same
  simp only [formerIndex] at same
  split at same <;> omega

namespace TlbAgrees

variable {vm next : Memory} {page frame : Nat}
variable (agrees : TlbAgrees vm)
include agrees

theorem updateTlb (missed : searchTlb vm page = none) (maps : Maps vm page frame) :
    TlbAgrees (updateTlb vm page frame) := by
  rw [searchTlb_eq_none] at missed
  refine ⟨updateTlb_le agrees.count_le page frame, ?_,
    maps_of_updateTlb agrees.count_le agrees.maps maps⟩
  intro i iLt j jLt samePage
  rcases updateTlb_cases agrees.count_le iLt with ⟨iLast, iNew⟩ | ⟨iFormer, iOld⟩ <;>
    rcases updateTlb_cases agrees.count_le jLt with ⟨jLast, jNew⟩ | ⟨jFormer, jOld⟩
  · omega
  · rw [iNew, jOld] at samePage
    exact absurd samePage.symm (missed _ jFormer)
  · rw [iOld, jNew] at samePage
    exact absurd samePage (missed _ iFormer)
  · rw [iOld, jOld] at samePage
    exact formerIndex_injective vm (agrees.distinct _ iFormer _ jFormer samePage)

theorem of_maps (sameTlb : next.tlb = vm.tlb) (sameCount : next.tlbCount = vm.tlbCount)
    (kept : ∀ {page frame}, Maps vm page frame → Maps next page frame) : TlbAgrees next := by
  refine ⟨by rw [sameCount]; exact agrees.count_le, ?_, ?_⟩
  · rw [sameTlb, sameCount]
    exact agrees.distinct
  · rw [sameTlb, sameCount]
    exact fun i inside => kept (agrees.maps i inside)

theorem loadPage (notPresent : (vm.pageTable page).present = false) (frame : Nat) :
    TlbAgrees (loadPage vm page frame) :=
  agrees.of_maps rfl rfl fun maps =>
    (Represents.maps_loadPage_of_ne (Represents.ne_of_notPresent notPresent maps)).mpr maps

theorem translates (translated : Translates vm page next frame) : TlbAgrees next := by
  cases translated with
  | hit => exact agrees
  | walk missed maps => exact agrees.updateTlb missed maps
  | fault missed notPresent =>
    exact (agrees.loadPage notPresent (freeFrame vm)).updateTlb missed
      (Represents.maps_loadPage_self vm page (freeFrame vm))

theorem step {op : Operation} {answer : Option UInt8} (stepEq : step vm op = some (next, answer)) :
    TlbAgrees next := by
  obtain ⟨frame, -, translated⟩ := exists_translates vm op.address
  have translatedAgrees := agrees.translates translated
  cases op with
  | write address value =>
    cases stepEq
    exact translatedAgrees.of_maps rfl rfl Represents.maps_storeByte.mpr
  | read address =>
    cases stepEq
    exact translatedAgrees

theorem translateAddress_of_maps {address : Nat} (maps : Maps vm (address / pageSize) frame) :
    (translateAddress vm address).2 = frame * pageSize + address % pageSize := by
  obtain ⟨found, addressEq, translated⟩ := exists_translates vm address
  suffices sameFrame : found = frame by rw [addressEq, sameFrame]
  generalize (translateAddress vm address).1 = next at translated
  cases translated with
  | hit hits => exact (maps_of_searchTlb agrees.maps hits).frame_eq maps
  | walk missed present => exact present.frame_eq maps
  | fault missed notPresent => exact absurd maps.1 (by simp [notPresent])

end TlbAgrees

/-- TLB entries are for different pages and agree with the page table. -/
theorem tlb_entries_match_page_table (ops : List Operation) (vm : Memory)
    (reached : Reaches step (initMemory zeroedMemory) ops vm) :
    vm.tlbCount ≤ tlbSize ∧
    (∀ i < vm.tlbCount, ∀ j < vm.tlbCount, (vm.tlb i).pageNumber = (vm.tlb j).pageNumber → i = j) ∧
    (∀ i < vm.tlbCount, (vm.pageTable (vm.tlb i).pageNumber).present ∧
      (vm.pageTable (vm.tlb i).pageNumber).frameNumber = (vm.tlb i).frameNumber) ∧
    ∀ address : Fin diskSize, (vm.pageTable (address / pageSize)).present →
      (translateAddress vm address).2 =
        (vm.pageTable (address / pageSize)).frameNumber * pageSize + address % pageSize := by
  have agrees : TlbAgrees vm := reached.invariant TlbAgrees
    (fun agrees stepEq => agrees.step stepEq) (tlbAgrees_of_tlbCount_zero rfl)
  refine ⟨agrees.count_le, agrees.distinct, agrees.maps, fun address present => ?_⟩
  exact agrees.translateAddress_of_maps ⟨present, rfl⟩

theorem shared_frame_found_by_both_pages :
    ∃ vm, Reaches step (initMemory zeroedMemory) [.read 0, .read 4096] vm ∧
      (translateAddress vm 5).2 = 5 ∧ (translateAddress vm 4101).2 = 5 := by
  have reached : Reaches step (initMemory zeroedMemory) [.read 0, .read 4096] _ := ⟨_, rfl⟩
  obtain ⟨-, -, -, translated⟩ := tlb_entries_match_page_table _ _ reached
  exact ⟨_, reached, translated 5 (by decide), translated 4101 (by decide)⟩

end BitsAndBytes.PageTable
