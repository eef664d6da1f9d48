import Mathlib.Algebra.BigOperators.Group.List.Basic
import Mathlib.Algebra.Ring.Nat
import Mathlib.Data.List.Induction

/-! # Means of natural numbers that are kept up to date -/

namespace BitsAndBytes.TruncatedMean

open List

structure Running where
  count : Nat
  mean : Nat
deriving DecidableEq, Repr

def Running.add (running : Running) (value : Nat) : Running where
  count := running.count + 1
  mean := (running.mean * running.count + value) / (running.count + 1)

def ofValues (values : List Nat) : Running :=
  values.foldl Running.add ⟨0, 0⟩

/-- No dividend of the divisions reaches the limit. -/
def DividendsBelow (limit : Nat) (values : List Nat) : Prop :=
  ∀ n (inside : n < values.length), (ofValues (values.take n)).mean * n + values[n] < limit

/-- The remainder of the sum by the number of values does not fall with any further value. -/
def RemaindersGrow (values : List Nat) : Prop :=
  ∀ n < values.length, (values.take n).sum % n ≤ (values.take (n + 1)).sum % (n + 1)

variable {values : List Nat} {n limit : Nat}

theorem ofValues_concat (values : List Nat) (value : Nat) :
    ofValues (values ++ [value]) = (ofValues values).add value := by
  rw [ofValues, foldl_append]
  rfl

theorem count_ofValues (values : List Nat) : (ofValues values).count = values.length := by
  induction values using List.reverseRecOn with
  | nil => rfl
  | append_singleton values value ih =>
    rw [ofValues_concat, Running.add, ih, length_append, length_singleton]

theorem mean_concat (values : List Nat) (value : Nat) : (ofValues (values ++ [value])).mean =
      ((ofValues values).mean * values.length + value) / (values.length + 1) := by
  rw [ofValues_concat, Running.add, count_ofValues]

theorem div_eq_add_div_iff {dividend rest divisor : Nat} (positive : 0 < divisor) :
    dividend / divisor = (dividend + rest) / divisor ↔ rest ≤ (dividend + rest) % divisor := by
  have divided := Nat.div_add_mod (dividend + rest) divisor
  constructor
  · intro same
    have below := Nat.mul_div_le dividend divisor
    rw [same] at below
    omega
  · intro small
    have less := Nat.mod_lt (dividend + rest) positive
    apply Nat.div_eq_of_lt_le
    · rw [Nat.mul_comm]
      omega
    · rw [Nat.add_mul, Nat.one_mul, Nat.mul_comm]
      omega

theorem mean_take_succ (inside : n < values.length) : (ofValues (values.take (n + 1))).mean =
      ((ofValues (values.take n)).mean * n + values[n]) / (n + 1) := by
  rw [take_succ_eq_append_getElem inside, mean_concat, length_take_of_le inside.le]

theorem sum_take_succ (inside : n < values.length) :
    (values.take (n + 1)).sum = (values.take n).sum + values[n] := by
  rw [take_succ_eq_append_getElem inside, sum_append, sum_singleton]

theorem mean_take_succ_eq_iff (inside : n < values.length)
    (exactSoFar : (ofValues (values.take n)).mean = (values.take n).sum / n) :
    (ofValues (values.take (n + 1))).mean = (values.take (n + 1)).sum / (n + 1) ↔
      (values.take n).sum % n ≤ (values.take (n + 1)).sum % (n + 1) := by
  have divided := Nat.div_add_mod' (values.take n).sum n
  have total : (values.take (n + 1)).sum =
      (values.take n).sum / n * n + values[n] + (values.take n).sum % n := by
    rw [sum_take_succ inside]
    omega
  rw [mean_take_succ inside, exactSoFar, total]
  exact div_eq_add_div_iff (Nat.succ_pos n)

theorem means_eq_iff_remaindersGrow :
    (∀ n ≤ values.length, (ofValues (values.take n)).mean = (values.take n).sum / n) ↔
      RemaindersGrow values := by
  constructor
  · intro exactly n inside
    exact (mean_take_succ_eq_iff inside (exactly n inside.le)).mp (exactly (n + 1) inside)
  · intro grow n bound
    induction n with
    | zero => simp [ofValues]
    | succ n ih => exact (mean_take_succ_eq_iff bound (ih (by omega))).mpr (grow n bound)

theorem mean_mul_le (bound : n ≤ values.length) :
    (ofValues (values.take n)).mean * n ≤ (values.take n).sum := by
  induction n with
  | zero => exact Nat.zero_le _
  | succ n ih =>
    rw [mean_take_succ bound, sum_take_succ bound]
    exact (Nat.div_mul_le_self _ _).trans (Nat.add_le_add_right (ih (by omega)) _)

theorem dividendsBelow_of_sum_lt (sumLt : values.sum < limit) : DividendsBelow limit values := by
  intro n inside
  have kept := mean_mul_le inside.le
  have split := sum_take_add_sum_drop values (n + 1)
  rw [sum_take_succ inside] at split
  omega

end BitsAndBytes.TruncatedMean
