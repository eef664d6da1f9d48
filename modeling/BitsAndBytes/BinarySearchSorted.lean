import BitsAndBytes.BinarySearch

/-! # `binary_search_asm` on sorted arrays -/

namespace BitsAndBytes.BinarySearch

open X86

def Sorted (arr : List Int32) : Prop :=
  arr.Pairwise fun first second => first.toInt ≤ second.toInt

instance (arr : List Int32) : Decidable (Sorted arr) :=
  inferInstanceAs (Decidable (List.Pairwise _ arr))

def elementAddresses (base : BitVec 64) (size : Int) : Set (BitVec 64) :=
  {address | ∃ i : Nat, (i : Int) < size ∧ address = base + BitVec.ofNat 64 i * 4}

/-- The word is an index of the target, or -1 if it does not occur. -/
def Answers (arr : List Int32) (size : Int) (target : Int32) (word : BitVec 32) : Prop :=
  (∃ i : Nat, (i : Int) < size ∧ arr[i]? = some target ∧ word = BitVec.ofNat 32 i) ∨
    ((∀ i : Nat, (i : Int) < size → arr[i]? ≠ some target) ∧ word = BitVec.ofInt 32 (-1))

/-- Elements before the interval are smaller than the target, those behind it are larger. -/
structure Separated (arr : List Int32) (size : Int) (target : Int32) (left right : Int) :
    Prop where
  before : ∀ {i : Nat} {value}, (i : Int) < left → arr[i]? = some value → value.toInt < target.toInt
  behind : ∀ {i : Nat} {value}, right < i → (i : Int) < size → arr[i]? = some value →
    target.toInt < value.toInt

variable {state : State} {arr : List Int32} {target midVal : Int32} {size left right : Int}
  {mid : Nat}

theorem Sorted.le (sorted : Sorted arr) {i j : Nat} {first second : Int32} (ordered : i ≤ j)
    (firstEq : arr[i]? = some first) (secondEq : arr[j]? = some second) :
    first.toInt ≤ second.toInt := by
  obtain ⟨iInside, rfl⟩ := List.getElem?_eq_some_iff.mp firstEq
  obtain ⟨jInside, rfl⟩ := List.getElem?_eq_some_iff.mp secondEq
  rcases Nat.eq_or_lt_of_le ordered with rfl | less
  · exact le_rfl
  · exact List.pairwise_iff_getElem.mp sorted i j iInside jInside less

theorem separated_start : Separated arr size target 0 (size - 1) := by
  constructor
  · intro i value negative
    omega
  · intro i value behind inside
    omega

namespace Separated

variable (separated : Separated arr size target left right)
include separated

theorem moveLeft (sorted : Sorted arr) (read : arr[mid]? = some midVal)
    (less : midVal.toInt < target.toInt) : Separated arr size target (mid + 1) right := by
  refine ⟨fun before elementEq => ?_, separated.behind⟩
  exact lt_of_le_of_lt (sorted.le (by omega) elementEq read) less

theorem moveRight (sorted : Sorted arr) (read : arr[mid]? = some midVal)
    (greater : target.toInt < midVal.toInt) : Separated arr size target left (mid - 1) := by
  refine ⟨separated.before, fun behind _ elementEq => ?_⟩
  exact lt_of_lt_of_le greater (sorted.le (by omega) read elementEq)

theorem absent (empty : right < left) (i : Nat) (inside : (i : Int) < size) :
    arr[i]? ≠ some target := by
  intro elementEq
  rcases lt_or_ge (i : Int) left with before | behind
  · exact absurd (separated.before before elementEq) (lt_irrefl _)
  · exact absurd (separated.behind (by omega) inside elementEq) (lt_irrefl _)

end Separated

theorem Searching.answers {bound : Nat} (searching : Searching state arr target left right)
    (line : state.line = 2) (sorted : Sorted arr)
    (separated : Separated arr size target left right) (fits : size ≤ arr.length)
    (small : size ≤ 2147483647) (leftLow : 0 ≤ left) (ordered : left ≤ right + 1)
    (rightHigh : right < size) (enough : right + 1 - left < bound) :
    ∃ word, ReturnsWithin (elementAddresses (state.registers .rdi) size) binarySearchAsm state
      word ∧ Answers arr size target word := by
  induction bound generalizing state left right with
  | zero => omega
  | succ bound ih =>
    by_cases nonempty : left ≤ right
    · obtain ⟨midVal, read, -⟩ := read_middle leftLow nonempty (lt_of_lt_of_le rightHigh fits)
      have midEq : ((((left + right) / 2).toNat : Nat) : Int) = (left + right) / 2 := by omega
      have inside : state.registers .rdi + BitVec.ofNat 64 ((left + right) / 2).toNat * 4 ∈
          elementAddresses (state.registers .rdi) size :=
        ⟨((left + right) / 2).toNat, by omega, rfl⟩
      obtain ⟨found, less, greater⟩ := searching.turn line leftLow nonempty (by omega) read inside
      rcases lt_trichotomy midVal.toInt target.toInt with smaller | equal | larger
      · obtain ⟨next, runs, nextLine, inNext⟩ := less smaller
        have further := separated.moveLeft sorted read smaller
        rw [midEq] at further
        obtain ⟨word, returns, answers⟩ := ih inNext nextLine further (by omega) (by omega)
          rightHigh (by omega)
        rw [registers_rdi runs] at returns
        exact ⟨word, runs.returnsWithin returns, answers⟩
      · rw [Int32.toInt_inj] at equal
        refine ⟨_, found equal, .inl ⟨((left + right) / 2).toNat, by omega, ?_, ?_⟩⟩
        · rw [read, equal]
        · rw [← BitVec.ofInt_natCast, midEq]
      · obtain ⟨next, runs, nextLine, inNext⟩ := greater larger
        have further := separated.moveRight sorted read larger
        rw [midEq] at further
        obtain ⟨word, returns, answers⟩ := ih inNext nextLine further leftLow (by omega)
          (by omega) (by omega)
        rw [registers_rdi runs] at returns
        exact ⟨word, runs.returnsWithin returns, answers⟩
    · have empty : right < left := by omega
      exact ⟨_, searching.exits line empty (by omega) (by omega),
        .inr ⟨separated.absent empty, rfl⟩⟩

/-- In a sorted array an index of the target is returned, or `-1`, and only elements are loaded. -/
theorem binary_search_asm_answers (arr : List Int32) (size target : Int32) (sorted : Sorted arr)
    (nonneg : 0 ≤ size.toInt) (fits : size.toInt ≤ arr.length) (state : State)
    (entered : Entered state arr size target) :
    ∃ word, Answers arr size.toInt target word ∧
      (∀ other, Returns binarySearchAsm state other ↔ other = word) ∧
      ∀ address, LoadsFrom binarySearchAsm state address → ∃ i : Nat, (i : Int) < size.toInt ∧
          address = state.registers .rdi + BitVec.ofNat 64 i * 4 := by
  have small : size.toInt ≤ 2147483647 := Int32.toInt_le size
  obtain ⟨head, runs, line, searching⟩ := entered.runs
  obtain ⟨word, returns, answers⟩ := searching.answers line sorted separated_start fits small
    le_rfl (by omega) (by omega) (by omega : size.toInt - 1 + 1 - 0 < (size.toInt.toNat + 1 : Nat))
  rw [registers_rdi runs] at returns
  have within := runs.returnsWithin returns
  refine ⟨word, answers, fun other => ⟨fun alsoReturns => ?_, ?_⟩, fun address loads => ?_⟩
  · exact alsoReturns.unique within.returns
  · rintro rfl
    exact within.returns
  · exact within.mem_of_loadsFrom loads

def threeSorted : State where
  registers
    | .rdi => 4096
    | .rsi => 3
    | .rdx => 4
    | _ => 0
  flags := ⟨false, false, false⟩
  line := 0
  memory := fun address =>
    ([3, 0, 0, 0, 5, 0, 0, 0, 8, 0, 0, 0] : List (BitVec 8))[(address - 4096).toNat]?

theorem entered_threeSorted : Entered threeSorted [3, 5, 8] 3 4 := by
  refine ⟨rfl, ?_, rfl, rfl⟩
  intro i inside
  match i with
  | 0 => rfl
  | 1 => rfl
  | 2 => rfl

theorem binary_search_asm_answers_on_three_numbers : ∃ word, Answers [3, 5, 8] 3 4 word ∧
      (∀ other, Returns binarySearchAsm threeSorted other ↔ other = word) := by
  obtain ⟨word, answers, returns, -⟩ := binary_search_asm_answers [3, 5, 8] 3 4 (by decide)
    (by decide) (by decide) threeSorted entered_threeSorted
  exact ⟨word, answers, returns⟩

end BitsAndBytes.BinarySearch
