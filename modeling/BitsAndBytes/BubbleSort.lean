import BitsAndBytes.CheckedArray
import Mathlib.Data.List.Perm.Basic

/-! # Bubble sort -/

namespace BitsAndBytes.BubbleSort

open List Option Function

variable {Value : Type*} (swap : Value → Value → Bool)

def pass : Nat → List Value → List Value
  | count + 1, first :: second :: rest =>
    if swap first second then
      second :: pass count (first :: rest)
    else
      first :: pass count (second :: rest)
  | _, values => values

def bubbleSort (values : List Value) : List Value :=
  (range (values.length - 1)).foldl
    (fun current index => pass swap (values.length - index - 1) current) values

theorem pass_perm (count : Nat) (values : List Value) : (pass swap count values).Perm values := by
  induction count generalizing values with
  | zero => exact .refl _
  | succ count ih =>
    rcases values with _ | ⟨first, _ | ⟨second, rest⟩⟩
    · exact .refl _
    · exact .refl _
    · rw [pass]
      split
      · exact ((ih (first :: rest)).cons second).trans (.swap first second rest)
      · exact (ih (second :: rest)).cons first

theorem foldl_pass_perm (counts : Nat → Nat) (indices : List Nat) (values : List Value) :
    (indices.foldl (fun current index => pass swap (counts index) current) values).Perm values :=
  foldlRecOn indices _ (.refl values)
    fun current perm index _ => (pass_perm swap (counts index) current).trans perm

theorem bubbleSort_perm (values : List Value) : (bubbleSort swap values).Perm values :=
  foldl_pass_perm swap _ _ values

variable {values : List Value} {count : Nat}

section

variable {swap} {relation : Value → Value → Prop}

theorem pass_pairwise (exchanged : ∀ {first second}, swap first second → relation second first)
    (count : Nat) (ordered : values.Pairwise relation) :
    (pass swap count values).Pairwise relation := by
  induction count generalizing values with
  | zero => exact ordered
  | succ count ih =>
    rcases values with _ | ⟨first, _ | ⟨second, rest⟩⟩
    · exact ordered
    · exact ordered
    · simp only [pairwise_cons, forall_mem_cons] at ordered
      obtain ⟨⟨related, firstRest⟩, secondRest, restOrdered⟩ := ordered
      rw [pass]
      split
      · rename_i swapped
        refine pairwise_cons.mpr ⟨?_, ih (pairwise_cons.mpr ⟨firstRest, restOrdered⟩)⟩
        intro value member
        rw [(pass_perm swap count _).mem_iff, mem_cons] at member
        rcases member with rfl | later
        · exact exchanged swapped
        · exact secondRest value later
      · refine pairwise_cons.mpr ⟨?_, ih (pairwise_cons.mpr ⟨secondRest, restOrdered⟩)⟩
        intro value member
        rw [(pass_perm swap count _).mem_iff, mem_cons] at member
        rcases member with rfl | later
        · exact related
        · exact firstRest value later

theorem bubbleSort_pairwise
    (exchanged : ∀ {first second}, swap first second → relation second first)
    (ordered : values.Pairwise relation) : (bubbleSort swap values).Pairwise relation := by
  exact foldlRecOn _ _ ordered fun current ordered index _ =>
    pass_pairwise exchanged _ ordered

variable (asymm : ∀ first second, swap first second → ¬ swap second first)
  (transitive : ∀ first second third, ¬ swap first second → ¬ swap second third →
    ¬ swap first third)
include asymm transitive

theorem pass_eq_append (inside : count < values.length) :
    ∃ front last, pass swap count values = front ++ last :: values.drop (count + 1) ∧
      (front ++ [last]).Perm (values.take (count + 1)) ∧ ∀ value ∈ front, ¬ swap value last := by
  induction count generalizing values with
  | zero =>
    obtain ⟨first, rest, rfl⟩ := exists_cons_of_length_pos inside
    exact ⟨[], first, by rw [pass]; rfl; exact nofun, .refl _, nofun⟩
  | succ count ih =>
    rcases values with _ | ⟨first, _ | ⟨second, rest⟩⟩
    · cases inside
    · simp at inside
    · obtain ⟨lead, carried, passEq, perm, kept⟩ : ∃ lead carried,
          pass swap (count + 1) (first :: second :: rest) =
            lead :: pass swap count (carried :: rest) ∧
          [lead, carried].Perm [first, second] ∧ ¬ swap lead carried := by
        rw [pass]
        split
        · rename_i swapped
          exact ⟨second, first, rfl, .swap _ _ _, asymm _ _ swapped⟩
        · rename_i kept
          exact ⟨first, second, rfl, .refl _, kept⟩
      obtain ⟨front, last, restEq, restPerm, below⟩ :=
        ih (show count < (carried :: rest).length by simpa using inside)
      refine ⟨lead :: front, last, by rw [passEq, restEq]; rfl, ?_, ?_⟩
      · exact (restPerm.cons lead).trans (perm.append_right (rest.take count))
      · refine forall_mem_cons.mpr ⟨?_, below⟩
        have member := restPerm.mem_iff.mpr (mem_cons_self (a := carried))
        rcases mem_append.mp member with inFront | isLast
        · exact transitive _ _ _ kept (below carried inFront)
        · rwa [← mem_singleton.mp isLast]

theorem exists_settled (inside : count ≤ values.length - 1) : ∃ front back, (range count).foldl
        (fun current index => pass swap (values.length - index - 1) current) values =
          front ++ back ∧
      back.length = count ∧ back.Pairwise (fun first second => ¬ swap first second) ∧
      ∀ first ∈ front, ∀ second ∈ back, ¬ swap first second := by
  induction count with
  | zero => exact ⟨values, [], by simp, rfl, .nil, fun _ _ => nofun⟩
  | succ count ih =>
    obtain ⟨front, back, settled, length, sorted, below⟩ := ih (by omega)
    have total : front.length + count = values.length := by
      rw [← length, ← length_append, ← settled]
      exact (foldl_pass_perm swap _ _ values).length_eq
    obtain ⟨newFront, last, passEq, perm, least⟩ := pass_eq_append asymm transitive
      (show values.length - count - 1 < (front ++ back).length by simp; omega)
    have frontLength : values.length - count - 1 + 1 = front.length := by omega
    rw [frontLength, take_left] at perm
    rw [frontLength, drop_left] at passEq
    have fromFront : ∀ value ∈ newFront ++ [last], value ∈ front := fun _ => perm.mem_iff.mp
    rw [forall_mem_append, forall_mem_singleton] at fromFront
    refine ⟨newFront, last :: back, ?_, by rw [length_cons, length], ?_, ?_⟩
    · rw [range_succ, foldl_append, settled]
      exact passEq
    · exact pairwise_cons.mpr ⟨below last fromFront.2, sorted⟩
    · intro first member
      exact forall_mem_cons.mpr ⟨least first member, below first (fromFront.1 first member)⟩

theorem bubbleSort_sorted (values : List Value) :
    (bubbleSort swap values).Pairwise fun first second => ¬ swap first second := by
  obtain ⟨front, back, settled, length, sorted, below⟩ :=
    exists_settled asymm transitive (Nat.le_refl (values.length - 1))
  have total := (bubbleSort_perm swap values).length_eq
  rw [bubbleSort, settled] at total ⊢
  rw [length_append, length] at total
  refine pairwise_append.mpr ⟨?_, sorted, below⟩
  rcases front with _ | ⟨first, _ | ⟨second, rest⟩⟩
  · exact .nil
  · exact pairwise_singleton _ _
  · simp only [length_cons] at total
    omega

end

section

open CheckedArray

variable (capacity : Nat)

def exchange (cells : Nat → Value) (index : Nat) : Option (Nat → Value) := do
  let first ← read capacity cells index
  let second ← read capacity cells (index + 1)
  if swap first second then
    let cells ← write capacity cells index second
    write capacity cells (index + 1) first
  else
    some cells

def passInArray : Nat → Nat → (Nat → Value) → Option (Nat → Value)
  | 0, _, cells => some cells
  | count + 1, index, cells =>
    (exchange swap capacity cells index).bind (passInArray count (index + 1))

def sortInArray (size : Nat) (cells : Nat → Value) : Option (Nat → Value) :=
  (range (size - 1)).foldlM
    (fun cells index => passInArray swap capacity (size - index - 1) 0 cells) cells

variable {capacity} {cells : Nat → Value}

theorem exchange_of_holds (front : List Value) {first second : Value} {rest : List Value}
    (holds : Holds cells (front ++ first :: second :: rest)) (fits : front.length + 1 < capacity) :
    ∃ after, exchange swap capacity cells front.length = some after ∧ Holds after (front ++
        if swap first second then second :: first :: rest else first :: second :: rest) := by
  have readFirst := holds.read (Nat.lt_of_succ_lt fits)
  have holdsNext : Holds cells ((front ++ [first]) ++ second :: rest) := by rwa [append_assoc]
  have lengthNext : (front ++ [first]).length = front.length + 1 := by simp
  have readSecond : read capacity cells (front.length + 1) = some second := by
    rw [← lengthNext]
    exact holdsNext.read (by omega)
  simp only [exchange, readFirst, readSecond, bind_eq_bind, bind_some]
  split
  · have written := holds.update second
    have writtenNext : Holds (update (update cells front.length second)
        (front.length + 1) first) (front ++ second :: first :: rest) := by
      have both : Holds (update cells front.length second)
          ((front ++ [second]) ++ second :: rest) := by rwa [append_assoc]
      have updated := both.update first
      rwa [append_assoc, length_append] at updated
    rw [write_of_lt (by omega), bind_some, write_of_lt fits]
    exact ⟨_, rfl, writtenNext⟩
  · exact ⟨cells, rfl, holds⟩

theorem passInArray_of_holds (count : Nat) (front : List Value)
    (holds : Holds cells (front ++ values)) (pairs : count < values.length)
    (fits : front.length + values.length ≤ capacity) :
    ∃ after, passInArray swap capacity count front.length cells = some after ∧
      Holds after (front ++ pass swap count values) := by
  induction count generalizing cells front values with
  | zero =>
    refine ⟨cells, rfl, ?_⟩
    rwa [pass]
    exact nofun
  | succ count ih =>
    rcases values with _ | ⟨first, _ | ⟨second, rest⟩⟩
    · cases pairs
    · simp at pairs
    · simp only [length_cons] at pairs fits
      obtain ⟨exchanged, exchangeEq, exchangedHolds⟩ :=
        exchange_of_holds swap front holds (show front.length + 1 < capacity by omega)
      obtain ⟨lead, other, leadHolds, passEq⟩ : ∃ lead other,
          Holds exchanged (front ++ [lead] ++ other :: rest) ∧
            pass swap (count + 1) (first :: second :: rest) =
              lead :: pass swap count (other :: rest) := by
        simp only [append_assoc, singleton_append]
        split at exchangedHolds
        · rename_i swapped
          exact ⟨second, first, exchangedHolds, if_pos swapped⟩
        · rename_i kept
          exact ⟨first, second, exchangedHolds, if_neg kept⟩
      have lengthNext : (front ++ [lead]).length = front.length + 1 := by simp
      obtain ⟨after, passed, afterHolds⟩ := ih (front ++ [lead]) leadHolds
        (by simp only [length_cons]; omega)
        (by simp only [lengthNext, length_cons]; omega)
      refine ⟨after, ?_, ?_⟩
      · rw [passInArray, exchangeEq, bind_some, ← lengthNext, passed]
      · rwa [passEq, append_cons]

theorem sortInArray_of_holds (holds : Holds cells values) (fits : values.length ≤ capacity) :
    ∃ after, sortInArray swap capacity values.length cells = some after ∧
      Holds after (bubbleSort swap values) := by
  unfold sortInArray bubbleSort
  have below : ∀ index ∈ range (values.length - 1), index + 1 < values.length := by
    intro index member
    have := mem_range.mp member
    omega
  generalize range (values.length - 1) = indices at below
  generalize size : values.length = count at below fits
  induction indices generalizing cells values with
  | nil => exact ⟨cells, rfl, holds⟩
  | cons index indices ih =>
    rw [forall_mem_cons] at below
    obtain ⟨passed, passedEq, passedHolds⟩ := passInArray_of_holds swap (count - index - 1) [] holds
      (by omega) (show 0 + values.length ≤ capacity by omega)
    obtain ⟨after, sorted, afterHolds⟩ := ih passedHolds
      ((pass_perm swap _ values).length_eq.trans size) below.2
    refine ⟨after, ?_, afterHolds⟩
    rw [foldlM_cons]
    simp only [length_nil] at passedEq
    rw [passedEq]
    exact sorted

end

end BitsAndBytes.BubbleSort
