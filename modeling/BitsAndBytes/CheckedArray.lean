import Mathlib.Data.List.GetD
import Mathlib.Logic.Function.Basic

/-! # Arrays of a fixed size -/

namespace BitsAndBytes.CheckedArray

open List Function

variable {Value : Type*}

def read (capacity : Nat) (cells : Nat → Value) (index : Nat) : Option Value :=
  if index < capacity then some (cells index) else none

def write (capacity : Nat) (cells : Nat → Value) (index : Nat) (value : Value) :
    Option (Nat → Value) :=
  if index < capacity then some (Function.update cells index value) else none

def Holds (cells : Nat → Value) (values : List Value) : Prop :=
  ∀ index (inside : index < values.length), cells index = values[index]

variable {capacity index : Nat} {cells : Nat → Value} {value : Value}
  {before after values : List Value}

theorem holds_nil (cells : Nat → Value) : Holds cells [] := nofun

theorem write_of_lt (inside : index < capacity) (cells : Nat → Value) (value : Value) :
    write capacity cells index value = some (Function.update cells index value) := if_pos inside

theorem write_of_le (outside : capacity ≤ index) (cells : Nat → Value) (value : Value) :
    write capacity cells index value = none := if_neg (Nat.not_lt.mpr outside)

theorem Holds.read (holds : Holds cells (before ++ value :: after))
    (inside : before.length < capacity) :
    CheckedArray.read capacity cells before.length = some value := by
  rw [CheckedArray.read, if_pos inside, holds before.length (by simp)]
  simp

theorem Holds.update (holds : Holds cells (before ++ value :: after)) (other : Value) :
    Holds (Function.update cells before.length other) (before ++ other :: after) := by
  intro index inside
  by_cases written : index = before.length
  · subst written
    simp
  · have sameLength : (before ++ value :: after).length = (before ++ other :: after).length := by
      simp
    rw [update_of_ne written, holds index (sameLength ▸ inside), getElem_append, getElem_append]
    split
    · rfl
    · rw [getElem_cons, getElem_cons, dif_neg (by omega), dif_neg (by omega)]

theorem Holds.concat (holds : Holds cells values) (value : Value) :
    Holds (Function.update cells values.length value) (values ++ [value]) := by
  intro index inside
  by_cases written : index = values.length
  · subst written
    simp
  · have within : index < values.length := by
      rw [length_append, length_singleton] at inside
      omega
    rw [update_of_ne written, holds index within, getElem_append_left within]

end BitsAndBytes.CheckedArray
