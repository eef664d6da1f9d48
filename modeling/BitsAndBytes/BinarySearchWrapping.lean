import BitsAndBytes.BinarySearchSorted
import BitsAndBytes.WhileLoop

/-! # `binary_search_c` with wrapping arithmetic -/

namespace BitsAndBytes.BinarySearch

open SignedInt WhileLoop List Option

structure Search where
  left : Int
  right : Int
  returned : Option Int
deriving DecidableEq, Repr

namespace Search

def middle (search : Search) : Int :=
  wrapped (search.left + search.right) >>> (1 : Nat)

def isOpen (search : Search) : Bool :=
  search.returned.isNone && decide (search.left ≤ search.right)

end Search

def searchStep (arr : List Int32) (target : Int) (search : Search) : Option (Search × Unit) :=
  (element arr search.middle).map fun midVal =>
    (if midVal.toInt = target then
      { search with returned := some search.middle }
    else if midVal.toInt < target then
      { search with left := wrapped (search.middle + 1) }
    else
      { search with right := wrapped (search.middle - 1) }, ())

def searchStart (size : Int) : Search :=
  ⟨0, wrapped (size - 1), none⟩

/-- Every middle that the search computes lies in its interval and in the array. -/
def MiddlesInside (arr : List Int32) (size target : Int) : Prop :=
  ∀ outs search, Iterates Search.isOpen (searchStep arr target) (searchStart size) outs search →
    search.isOpen →
    search.left ≤ search.middle ∧ search.middle ≤ search.right ∧ (element arr search.middle).isSome

variable {arr : List Int32} {size target left right : Int} {search next : Search} {out : Unit}

theorem isOpen_iff : search.isOpen ↔ search.returned = none ∧ search.left ≤ search.right := by
  rw [Search.isOpen, Bool.and_eq_true, isNone_iff_eq_none, decide_eq_true_eq]

theorem shiftRight_one (value : Int) : value >>> (1 : Nat) = value / 2 := by
  rw [Int.shiftRight_eq_div_pow]
  rfl

theorem middle_eq (low : 0 ≤ search.left + search.right)
    (high : search.left + search.right ≤ intMax) :
    search.middle = (search.left + search.right) / 2 := by
  rw [Search.middle, wrapped_eq_self (le_trans (by decide) low) high, shiftRight_one]

theorem middle_neg (low : intMax < search.left + search.right) (leftHigh : search.left ≤ intMax)
    (rightHigh : search.right ≤ intMax) : search.middle < 0 := by
  unfold intMax at low leftHigh rightHigh
  rw [Search.middle, shiftRight_one, wrapped, Int.bmod_def]
  split
  · omega
  · omega

structure Bounded (size : Int) (search : Search) : Prop where
  left_nonneg : 0 ≤ search.left
  ordered : search.left ≤ search.right + 1
  right_lt : search.right < size

theorem bounded_start (nonneg : 0 ≤ size) (isInt : size ≤ intMax) :
    Bounded size (searchStart size) := by
  have right : wrapped (size - 1) = size - 1 := wrapped_eq_self (by unfold intMin; omega) (by omega)
  rw [searchStart, right]
  exact ⟨le_rfl, by simp only; omega, by simp only; omega⟩

namespace Bounded

variable (bounded : Bounded size search)
include bounded

theorem middle_eq (small : size ≤ 1073741824) (tested : search.isOpen) :
    search.middle = (search.left + search.right) / 2 := by
  obtain ⟨leftLow, ordered, rightHigh⟩ := bounded
  obtain ⟨-, nonempty⟩ := isOpen_iff.mp tested
  exact BinarySearch.middle_eq (by omega) (by unfold intMax; omega)

theorem step (small : size ≤ 1073741824) (tested : search.isOpen)
    (stepEq : searchStep arr target search = some (next, out)) : Bounded size next := by
  have middle := bounded.middle_eq small tested
  obtain ⟨leftLow, ordered, rightHigh⟩ := bounded
  obtain ⟨-, nonempty⟩ := isOpen_iff.mp tested
  obtain ⟨midVal, -, nextEq⟩ := map_eq_some_iff.mp stepEq
  obtain ⟨rfl, -⟩ := Prod.mk.inj nextEq
  rw [middle, wrapped_eq_self (by unfold intMin; omega) (by unfold intMax; omega),
    wrapped_eq_self (by unfold intMin; omega) (by unfold intMax; omega)]
  split
  · exact ⟨leftLow, ordered, rightHigh⟩
  · split
    · exact ⟨by simp only; omega, by simp only; omega, rightHigh⟩
    · exact ⟨leftLow, by simp only; omega, by simp only; omega⟩

end Bounded

theorem middlesInside_of_small (nonneg : 0 ≤ size) (small : size ≤ 1073741824)
    (fits : size ≤ arr.length) : MiddlesInside arr size target := by
  intro outs search iterates tested
  have bounded : Bounded size search := iterates.invariant (fun search _ => Bounded size search)
      (fun bounded tested stepEq => bounded.step small tested stepEq)
      (bounded_start nonneg (le_trans small (by decide)))
  obtain ⟨-, nonempty⟩ := isOpen_iff.mp tested
  obtain ⟨midVal, -, read⟩ := read_middle bounded.left_nonneg nonempty
    (lt_of_lt_of_le bounded.right_lt fits)
  rw [bounded.middle_eq small tested, read]
  exact ⟨by omega, by omega, rfl⟩

theorem exists_middle_neg {gap : Nat} (large : 1073741824 < size) (isInt : size ≤ intMax)
    (fits : size ≤ arr.length) (zeros : ∀ value ∈ arr, value = 0) (positive : 0 < target)
    (leftLow : 0 ≤ left) (leftHigh : left ≤ size - 1) (near : size - 1 - left ≤ gap) :
    ∃ outs search, Iterates Search.isOpen (searchStep arr target) ⟨left, size - 1, none⟩ outs
      search ∧ search.isOpen ∧ 0 ≤ search.left ∧ search.middle < 0 := by
  have isOpen : Search.isOpen ⟨left, size - 1, none⟩ := isOpen_iff.mpr ⟨rfl, leftHigh⟩
  induction gap generalizing left with
  | zero =>
    refine ⟨[], _, iterates_nil, isOpen, leftLow, middle_neg ?_ ?_ ?_⟩
    all_goals
      unfold intMax at *
      simp only
      omega
  | succ gap ih =>
    by_cases overflow : intMax < left + (size - 1)
    · refine ⟨[], _, iterates_nil, isOpen, leftLow, middle_neg overflow ?_ ?_⟩
      all_goals
        simp only
        omega
    · have middle : Search.middle ⟨left, size - 1, none⟩ = (left + (size - 1)) / 2 :=
        middle_eq (by simp only; omega) (by simp only; omega)
      obtain ⟨midVal, element?, read⟩ := read_middle leftLow leftHigh
        (lt_of_lt_of_le (by omega) fits)
      have zero := zeros midVal (mem_of_getElem? element?)
      have stepEq : searchStep arr target ⟨left, size - 1, none⟩ =
          some (⟨(left + (size - 1)) / 2 + 1, size - 1, none⟩, ()) := by
        have less : midVal.toInt < target := by
          rw [zero]
          exact positive
        rw [searchStep, middle, read, map_some, if_neg (by omega), if_pos less,
          wrapped_eq_self (by unfold intMin; omega) (by unfold intMax at *; omega)]
      have smaller : (left + (size - 1)) / 2 + 1 ≤ size - 1 := by
        unfold intMax at overflow
        omega
      obtain ⟨outs, search, iterates, rest⟩ := ih (by omega) smaller (by omega)
        (isOpen_iff.mpr ⟨rfl, smaller⟩)
      exact ⟨() :: outs, search, iterates_cons.mpr ⟨_, isOpen, stepEq, iterates⟩, rest⟩

theorem not_middlesInside_of_zeros (large : 1073741824 < size) (isInt : size ≤ intMax)
    (fits : size ≤ arr.length) (zeros : ∀ value ∈ arr, value = 0) (positive : 0 < target) :
    ¬ MiddlesInside arr size target := by
  intro inside
  have near : size - 1 - 0 ≤ (size.toNat : Nat) := by omega
  obtain ⟨outs, search, iterates, tested, leftLow, negative⟩ :=
    exists_middle_neg large isInt fits zeros positive le_rfl (by omega) near
  have right : wrapped (size - 1) = size - 1 := wrapped_eq_self (by unfold intMin; omega) (by omega)
  have bounds := inside outs search (by rwa [searchStart, right]) tested
  omega

theorem sorted_replicate (length : Nat) : Sorted (replicate length 0) :=
  pairwise_replicate.mpr (.inr le_rfl)

/-- Every `mid` is inside the interval exactly for sizes of at most `2 ^ 30`. -/
theorem middles_inside_iff {size : Int} (nonneg : 0 ≤ size) (isInt : size ≤ intMax) :
    (∀ (arr : List Int32) (target : Int32), Sorted arr → size ≤ arr.length →
      MiddlesInside arr size target.toInt) ↔ size ≤ 1073741824 := by
  constructor
  · intro inside
    by_contra large
    have length : size ≤ (replicate size.toNat (0 : Int32)).length := by
      rw [length_replicate]
      omega
    refine not_middlesInside_of_zeros (not_le.mp large) isInt length ?_ (by decide)
      (inside _ 1 (sorted_replicate size.toNat) length)
    exact fun value member => eq_of_mem_replicate member
  · intro small arr target _ fits
    exact middlesInside_of_small nonneg small fits

theorem middles_inside_three_numbers : MiddlesInside [3, 5, 8] 3 (Int32.toInt 4) :=
  (middles_inside_iff (by decide) (by decide)).mpr (by decide) [3, 5, 8] 4 (by decide) (by decide)

theorem middle_outside_zeros : Sorted (replicate 1073741825 0) ∧
      (1073741825 : Int) ≤ (replicate 1073741825 (0 : Int32)).length ∧
      ¬ MiddlesInside (replicate 1073741825 0) 1073741825 (Int32.toInt 1) := by
  have length : (1073741825 : Int) ≤ (replicate 1073741825 (0 : Int32)).length := by
    rw [length_replicate]
    exact le_rfl
  refine ⟨sorted_replicate _, length, ?_⟩
  exact not_middlesInside_of_zeros (by decide) (by decide) length
    (fun value member => eq_of_mem_replicate member) (by decide)

end BitsAndBytes.BinarySearch
