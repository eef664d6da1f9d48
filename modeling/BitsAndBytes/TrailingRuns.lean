import Mathlib.Data.List.DropRight

/-! # Runs at the end of a list -/

namespace BitsAndBytes.TrailingRuns

open List

variable {Value : Type*}

section

variable [DecidableEq Value]

def trailing (value : Value) (values : List Value) : Nat :=
  (values.rtakeWhile fun other => other = value).length

@[simp]
theorem trailing_nil (value : Value) : trailing value [] = 0 := by
  rw [trailing, rtakeWhile_nil, length_nil]

@[simp]
theorem trailing_concat_self (value : Value) (values : List Value) :
    trailing value (values ++ [value]) = trailing value values + 1 := by
  rw [trailing, rtakeWhile_concat, if_pos (decide_eq_true rfl), length_append]
  rfl

theorem trailing_concat_of_ne {value last : Value} (different : last ≠ value)
    (values : List Value) : trailing value (values ++ [last]) = 0 := by
  rw [trailing, rtakeWhile_concat, if_neg (by simpa using different), length_nil]

theorem trailing_eq_zero_of_ne {value other : Value} {values : List Value}
    (ends : 0 < trailing value values) (different : other ≠ value) :
    trailing other values = 0 := by
  rcases eq_nil_or_concat values with rfl | ⟨front, last, rfl⟩
  · exact trailing_nil other
  · rw [concat_eq_append] at ends ⊢
    by_cases same : last = value
    · exact trailing_concat_of_ne (same ▸ different.symm) front
    · rw [trailing_concat_of_ne same] at ends
      exact absurd ends (lt_irrefl 0)

theorem replicate_suffix_iff {count : Nat} {value : Value} {values : List Value} :
    replicate count value <:+ values ↔ count ≤ trailing value values := by
  induction values using reverseRecOn generalizing count with
  | nil => simp
  | append_singleton front last ih =>
    cases count with
    | zero => simp
    | succ count =>
      rw [replicate_succ', suffix_concat_iff]
      by_cases same : last = value
      · subst same
        rw [trailing_concat_self, Nat.add_le_add_iff_right, ← ih]
        simp
      · rw [trailing_concat_of_ne same]
        have different : value ≠ last := Ne.symm same
        simp [different]

end

def differences [Sub Value] (values : List Value) : List Value :=
  values.zipWith (fun first second => second - first) values.tail

theorem differences_concat [Sub Value] (values : List Value) (last value : Value) :
    differences (values ++ [last] ++ [value]) =
      differences (values ++ [last]) ++ [value - last] := by
  induction values with
  | nil => rfl
  | cons first values ih =>
    cases values with
    | nil => rfl
    | cons second values => simpa [differences] using ih

end BitsAndBytes.TrailingRuns
