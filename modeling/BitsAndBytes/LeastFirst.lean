import Mathlib.Algebra.Order.BigOperators.Group.Finset

/-! # Choosing a least account first -/

namespace BitsAndBytes.LeastFirst

open Finset Multiset

variable {Index : Type*} [DecidableEq Index] {amount : Index → Nat} {trace : List Index}
  {next i j : Index}

def account (amount : Index → Nat) (trace : List Index) (i : Index) : Nat :=
  trace.count i * amount i

theorem account_concat : account amount (trace ++ [next]) i =
      account amount trace i + if i = next then amount i else 0 := by
  rw [account, account, List.count_append, List.count_singleton, Nat.add_mul]
  by_cases chosen : i = next
  · simp [chosen]
  · simp [chosen, Ne.symm chosen]

/-- No account is ahead of another by more than its own amount. -/
def Balanced (competitors : Finset Index) (amount : Index → Nat) (trace : List Index) : Prop :=
  ∀ i ∈ competitors, ∀ j ∈ competitors, account amount trace i ≤ account amount trace j + amount i

variable {competitors : Finset Index}

theorem balanced_nil : Balanced competitors amount [] := fun i _ j _ => by
  simp [account]

theorem Balanced.concat (balanced : Balanced competitors amount trace)
    (least : ∀ j ∈ competitors, account amount trace next ≤ account amount trace j) :
    Balanced competitors amount (trace ++ [next]) := by
  intro i iMem j jMem
  have before := balanced i iMem j jMem
  have chosen := least j jMem
  rw [account_concat, account_concat]
  by_cases mine : i = next
  · subst mine
    rw [if_pos rfl]
    omega
  · rw [if_neg mine]
    omega

theorem sum_count_eq_length (chosen : ∀ i ∈ trace, i ∈ competitors) :
    ∑ i ∈ competitors, trace.count i = trace.length := by
  have counts := sum_count_eq_card (m := (trace : Multiset Index)) chosen
  simpa only [coe_count, coe_card] using counts

theorem card_mul_count_le_length (chosen : ∀ i ∈ trace, i ∈ competitors)
    (least : ∀ j ∈ competitors, trace.count next ≤ trace.count j) :
    competitors.card * trace.count next ≤ trace.length := by
  rw [← sum_count_eq_length chosen]
  exact card_nsmul_le_sum competitors _ (trace.count next) least

theorem exists_bound_lt_count (bound : Nat) (chosen : ∀ i ∈ trace, i ∈ competitors)
    (many : bound * competitors.card < trace.length) :
    ∃ i ∈ competitors, bound < trace.count i := by
  by_contra none
  push Not at none
  have total := sum_count_eq_length chosen
  have bounded : ∑ i ∈ competitors, trace.count i ≤ competitors.card * bound :=
    sum_le_card_nsmul competitors _ bound none
  rw [Nat.mul_comm] at many
  omega

end BitsAndBytes.LeastFirst
