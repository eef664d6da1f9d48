import BitsAndBytes.CheckedArray
import Mathlib.Data.List.TakeWhile

/-! # Strings in arrays -/

namespace BitsAndBytes.CString

open CheckedArray List Option

/-- A NUL-terminated string of bytes, without its NUL. -/
structure CText where
  bytes : List UInt8
  noNul : 0 ∉ bytes

def strncpy (array : Nat → UInt8) (start : Nat) (source : List UInt8) (count index : Nat) : UInt8 :=
  if start ≤ index ∧ index < start + count then source.getD (index - start) 0 else array index

variable {Character : Type*} [DecidableEq Character] (nul : Character)

/-- The characters of an array before its first NUL. -/
def text (size : Nat) (array : Nat → Character) : List Character :=
  ((range size).map array).takeWhile (· ≠ nul)

/-- The string at the start of an array, which has to have a NUL. -/
def checkedText (size : Nat) (array : Nat → Character) : Option (List Character) :=
  if nul ∈ (range size).map array then some (text nul size array) else none

def truncate (size : Nat) (content : List Character) : List Character :=
  content.take (size - 1)

def snprintf (size : Nat) (content : List Character) (array : Nat → Character) (index : Nat) :
    Character :=
  if size = 0 then array index
  else (truncate size content ++ [nul])[index]?.getD (array index)

def clear (size : Nat) (array : Nat → Character) (index : Nat) : Character :=
  if index < size then nul else array index

variable {nul} {size : Nat} {array : Nat → Character} {content : List Character}

theorem takeWhile_eq_self_iff_notMem : content.takeWhile (· ≠ nul) = content ↔ nul ∉ content := by
  rw [takeWhile_eq_self_iff]
  simp only [decide_eq_true_eq]
  exact ⟨fun nonzero member => nonzero nul member rfl,
    fun noNul c member isNul => noNul (isNul ▸ member)⟩

theorem checkedText_of_holds (holds : Holds array (content ++ [nul]))
    (inside : content.length < size) :
    checkedText nul size array = some (content.takeWhile (· ≠ nul)) := by
  obtain ⟨spare, sizeEq⟩ := Nat.exists_eq_add_of_le (Nat.succ_le_of_lt inside)
  have written : (range (content.length + 1)).map array = content ++ [nul] := by
    refine ext_getElem (by simp) fun index _ bound => ?_
    rw [getElem_map, getElem_range, holds index bound]
  rw [checkedText, text, sizeEq, range_add, map_append, written, append_assoc,
    singleton_append, if_pos (by simp), takeWhile_append]
  split
  · rename_i whole
    rw [takeWhile_cons_of_neg (by simp), append_nil, ( takeWhile_prefix _).eq_of_length whole]
  · rfl

theorem text_snprintf (positive : 0 < size) (noNul : nul ∉ content) (array : Nat → Character) :
    text nul size (snprintf nul size content array) = truncate size content := by
  have holds : Holds (snprintf nul size content array) (truncate size content ++ [nul]) := by
    intro index bound
    rw [snprintf, if_neg (by omega), getElem?_eq_getElem bound, getD_some]
  have fits : (truncate size content).length < size := by
    rw [truncate, length_take]
    omega
  have noNulStored : nul ∉ truncate size content := fun member => noNul (mem_of_mem_take member)
  have stored := checkedText_of_holds holds fits
  rw [takeWhile_eq_self_iff_notMem.mpr noNulStored, checkedText] at stored
  split at stored
  · exact some.inj stored
  · cases stored

end BitsAndBytes.CString
