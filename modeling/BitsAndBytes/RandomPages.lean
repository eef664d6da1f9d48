import BitsAndBytes.OperationRuns
import BitsAndBytes.SignedInt

/-! # The allocator of `aslr.c` -/

namespace BitsAndBytes.RandomPages

open OperationRuns SignedInt List Option Function

def pageSize : Nat := 4096

def maxPages : Nat := 1000000

structure MemoryPage where
  address : Nat
  isAllocated : Bool

abbrev MemoryLayout := Nat → MemoryPage

def initMemoryLayout : MemoryLayout := fun _ => ⟨0, false⟩

structure Call where
  size : UInt64
  picks : List Nat
  offset : Nat
  offset_le : offset ≤ intMax.toNat

/-- A returned region, with the page it was made from. -/
structure Region where
  page : Nat
  start : Nat
  size : Nat

def chosenPage (layout : MemoryLayout) (picks : List Nat) : Option Nat :=
  (picks.map (· % maxPages)).find? fun page => ¬ (layout page).isAllocated

def allocatePage (layout : MemoryLayout) (pageIndex : Nat) : Option (MemoryLayout × Nat) := do
  let address ← checked (pageIndex * pageSize : Nat)
  some (update layout pageIndex ⟨address.toNat, true⟩, address.toNat)

def simMalloc (layout : MemoryLayout) (call : Call) : Option (MemoryLayout × Region) := do
  let page ← chosenPage layout call.picks
  let (layout, address) ← allocatePage layout page
  let range := UInt64.ofNat pageSize - call.size
  if range = 0 then none
  else some (layout, ⟨page, address + call.offset % range.toNat, call.size.toNat⟩)

def Region.InPage (region : Region) : Prop :=
  region.page * pageSize ≤ region.start ∧ region.start + region.size ≤ (region.page + 1) * pageSize

def Region.Disjoint (region other : Region) : Prop :=
  region.start + region.size ≤ other.start ∨ other.start + other.size ≤ region.start

/-- The `do` loop of `allocate_random_page` ends. -/
def Ends (layout : MemoryLayout) (call : Call) : Prop :=
  ∃ page, chosenPage layout call.picks = some page

/-- The size is below that of a page, and the address of the page is an `int`. -/
def Fits (layout : MemoryLayout) (call : Call) : Prop :=
  call.size.toNat < pageSize ∧
    ∀ page, chosenPage layout call.picks = some page → page * pageSize ≤ intMax.toNat

variable {layout next : MemoryLayout} {call : Call} {region : Region} {page : Nat}

theorem simMalloc_eq_some : simMalloc layout call = some (next, region) ↔
    ∃ page, chosenPage layout call.picks = some page ∧ page * pageSize ≤ intMax.toNat ∧
      UInt64.ofNat pageSize - call.size ≠ 0 ∧
      next = update layout page ⟨page * pageSize, true⟩ ∧
      region = ⟨page, page * pageSize +
        call.offset % (UInt64.ofNat pageSize - call.size).toNat, call.size.toNat⟩ := by
  constructor
  · intro malloced
    obtain ⟨page, chosen, malloced⟩ := bind_eq_some_iff.mp malloced
    obtain ⟨⟨after, address⟩, allocated, malloced⟩ := bind_eq_some_iff.mp malloced
    obtain ⟨product, productEq, allocatedEq⟩ := bind_eq_some_iff.mp allocated
    obtain ⟨rfl, -, fits⟩ := checked_eq_some_iff.mp productEq
    cases allocatedEq
    obtain ⟨nonzero, malloced⟩ := ite_none_left_eq_some.mp malloced
    cases malloced
    exact ⟨page, chosen, Int.toNat_le_toNat fits, nonzero, rfl, rfl⟩
  · rintro ⟨page, chosen, fits, nonzero, rfl, rfl⟩
    have low : intMin ≤ (page * pageSize : Nat) := Int.le_trans (by decide) (Int.natCast_nonneg _)
    have high := Int.ofNat_le.mpr fits
    have allocated : allocatePage layout page =
        some (update layout page ⟨page * pageSize, true⟩, page * pageSize) :=
      checked_bind low high _
    simp only [simMalloc, chosen, allocated, bind_eq_bind, bind_some, if_neg nonzero]

theorem range_toNat (small : call.size.toNat < pageSize) :
    (UInt64.ofNat pageSize - call.size).toNat = pageSize - call.size.toNat := by
  rw [UInt64.toNat_sub_of_le]
  · rfl
  · exact UInt64.le_iff_toNat_le.mpr (Nat.le_of_lt small)

theorem exists_simMalloc (ends : Ends layout call) (fits : Fits layout call) :
    ∃ next region, simMalloc layout call = some (next, region) ∧ region.InPage := by
  obtain ⟨page, chosen⟩ := ends
  obtain ⟨small, address⟩ := fits
  have range := range_toNat small
  have nonzero : UInt64.ofNat pageSize - call.size ≠ 0 := by
    intro zero
    rw [zero, UInt64.toNat_zero] at range
    omega
  refine ⟨_, _, simMalloc_eq_some.mpr ⟨page, chosen, address page chosen, nonzero, rfl, rfl⟩, ?_⟩
  have offset : call.offset % (pageSize - call.size.toNat) < pageSize - call.size.toNat :=
    Nat.mod_lt _ (by omega)
  simp only [Region.InPage, range, Nat.succ_mul]
  omega

theorem fits_of_simMalloc (malloced : simMalloc layout call = some (next, region))
    (inPage : region.InPage) : Fits layout call := by
  obtain ⟨page, chosen, fits, nonzero, -, rfl⟩ := simMalloc_eq_some.mp malloced
  refine ⟨?_, fun other otherChosen => ?_⟩
  · simp only [Region.InPage, Nat.succ_mul] at inPage
    refine Nat.lt_of_le_of_ne (by omega) fun whole => nonzero ?_
    rw [← whole, UInt64.ofNat_toNat, UInt64.sub_self]
  · cases chosen.symm.trans otherChosen
    exact fits

theorem inPage_iff {calls : List Call} (ends : Respects simMalloc Ends layout calls) :
    (∃ finish regions, run simMalloc layout calls = some (finish, regions) ∧
      ∀ region ∈ regions, region.InPage) ↔ Respects simMalloc Fits layout calls := by
  induction calls generalizing layout with
  | nil => exact iff_of_true ⟨layout, [], rfl, nofun⟩ trivial
  | cons call calls ih =>
    constructor
    · rintro ⟨finish, regions, malloced, inPage⟩
      obtain ⟨next, region, rest, first, others, rfl⟩ := run_cons_eq_some.mp malloced
      rw [forall_mem_cons] at inPage
      refine .cons (fits_of_simMalloc first inPage.1) first ?_
      exact (ih (ends.2 next region first)).mp ⟨finish, rest, others, inPage.2⟩
    · rintro ⟨fits, othersFit⟩
      obtain ⟨next, region, first, inPage⟩ := exists_simMalloc ends.1 fits
      obtain ⟨finish, regions, others, othersInPage⟩ :=
        (ih (ends.2 next region first)).mpr (othersFit next region first)
      exact ⟨finish, region :: regions,
        run_cons_eq_some.mpr ⟨next, region, regions, first, others, rfl⟩,
        forall_mem_cons.mpr ⟨inPage, othersInPage⟩⟩

theorem pages_pairwise_ne {calls : List Call} {finish : MemoryLayout} {regions : List Region}
    (malloced : run simMalloc layout calls = some (finish, regions)) :
    regions.Pairwise fun region other => region.page ≠ other.page := by
  have taken : (∀ region ∈ regions, (finish region.page).isAllocated) ∧
      regions.Pairwise fun region other => region.page ≠ other.page := by
    refine run_results (fun layout regions =>
      (∀ region ∈ regions, (layout region.page).isAllocated) ∧
        regions.Pairwise fun region other => region.page ≠ other.page) ?_ malloced
      ⟨nofun, .nil⟩
    rintro layout past call next region ⟨allocated, different⟩ stepEq
    obtain ⟨page, chosen, -, -, rfl, rfl⟩ := simMalloc_eq_some.mp stepEq
    have free : (layout page).isAllocated = false := by simpa using List.find?_some chosen
    have other_ne : ∀ other ∈ past, other.page ≠ page := by
      intro other member same
      rw [← same, allocated other member] at free
      cases free
    refine ⟨fun other member => ?_, pairwise_append.mpr ⟨different, pairwise_singleton _ _, ?_⟩⟩
    · rcases mem_append.mp member with earlier | now
      · rw [update_of_ne (other_ne other earlier)]
        exact allocated other earlier
      · rw [mem_singleton.mp now, update_self]
    · intro other member region isRegion
      rw [mem_singleton.mp isRegion]
      exact other_ne other member
  exact taken.2

theorem Region.InPage.disjoint {other : Region} (inPage : region.InPage)
    (otherInPage : other.InPage) (different : region.page ≠ other.page) :
    region.Disjoint other := by
  rcases Nat.lt_or_gt_of_ne different with before | after
  · have pages := Nat.mul_le_mul_right pageSize (Nat.succ_le_of_lt before)
    exact .inl (Nat.le_trans inPage.2 (Nat.le_trans pages otherInPage.1))
  · have pages := Nat.mul_le_mul_right pageSize (Nat.succ_le_of_lt after)
    exact .inr (Nat.le_trans otherInPage.2 (Nat.le_trans pages inPage.1))

/-- Regions are apart exactly if all sizes are below a page and the addresses are `int`s. -/
theorem regions_iff (calls : List Call) (ends : Respects simMalloc Ends initMemoryLayout calls) :
    (∃ finish regions, run simMalloc initMemoryLayout calls = some (finish, regions) ∧
      (∀ region ∈ regions, region.InPage) ∧ regions.Pairwise Region.Disjoint) ↔
      Respects simMalloc Fits initMemoryLayout calls := by
  rw [← inPage_iff ends]
  constructor
  · rintro ⟨finish, regions, malloced, inPage, -⟩
    exact ⟨finish, regions, malloced, inPage⟩
  · rintro ⟨finish, regions, malloced, inPage⟩
    refine ⟨finish, regions, malloced, inPage, ?_⟩
    exact (pages_pairwise_ne malloced).imp_of_mem fun member otherMember different =>
      (inPage _ member).disjoint (inPage _ otherMember) different

theorem regions_of_two_calls : ∃ finish regions, run simMalloc initMemoryLayout
      [⟨16, [5], 100, by decide⟩, ⟨4095, [5, 7], 9, by decide⟩] = some (finish, regions) ∧
    (∀ region ∈ regions, region.InPage) ∧ regions.Pairwise Region.Disjoint := by
  have chosen : ∀ page other : Nat, some other = some page → other * pageSize ≤ intMax.toNat →
      page * pageSize ≤ intMax.toNat := fun _ _ same fits => some.inj same ▸ fits
  refine (regions_iff _ ?_).mpr ?_
  · exact .cons ⟨5, rfl⟩ rfl (.cons ⟨7, rfl⟩ rfl (by trivial))
  · exact .cons ⟨by decide, fun page is => chosen page 5 is (by decide)⟩ rfl
      (.cons ⟨by decide, fun page is => chosen page 7 is (by decide)⟩ rfl (by trivial))

theorem upper_page_has_no_address :
    simMalloc initMemoryLayout ⟨16, [524288], 0, by decide⟩ = none := rfl

end BitsAndBytes.RandomPages
