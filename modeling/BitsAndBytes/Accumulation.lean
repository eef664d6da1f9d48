import Mathlib.Algebra.BigOperators.Group.Finset.Basic

/-! # Sums in memory -/

namespace BitsAndBytes.Accumulation

open List Function

variable {Cell Value : Type*} [DecidableEq Cell]

section

variable [AddCommMonoid Value]

def addAt (memory : Cell → Value) (update : Cell × Value) : Cell → Value :=
  Function.update memory update.1 (memory update.1 + update.2)

def accumulate (memory : Cell → Value) (updates : List (Cell × Value)) : Cell → Value :=
  updates.foldl addAt memory

def total (updates : List (Cell × Value)) (cell : Cell) : Value :=
  (updates.map fun update => if update.1 = cell then update.2 else 0).sum

theorem accumulate_apply (memory : Cell → Value) (updates : List (Cell × Value)) (cell : Cell) :
    accumulate memory updates cell = memory cell + total updates cell := by
  induction updates generalizing memory with
  | nil => simp [accumulate, total]
  | cons update updates ih =>
    have split : total (update :: updates) cell =
        (if update.1 = cell then update.2 else 0) + total updates cell := rfl
    have rest := ih (addAt memory update)
    rw [accumulate] at rest
    rw [accumulate, foldl_cons, rest, split, ← add_assoc]
    by_cases same : update.1 = cell
    · subst same
      simp [addAt]
    · simp [addAt, same, update_of_ne (Ne.symm same)]

theorem total_perm {updates others : List (Cell × Value)} (perm : updates.Perm others)
    (cell : Cell) : total updates cell = total others cell := (perm.map _).sum_eq

theorem total_flatMap {Index : Type*} (indices : List Index)
    (updates : Index → List (Cell × Value)) (cell : Cell) :
    total (indices.flatMap updates) cell =
      (indices.map fun index => total (updates index) cell).sum := by
  induction indices with
  | nil => rfl
  | cons index indices ih =>
    rw [flatMap_cons, total, map_append, sum_append, map_cons, sum_cons, ← ih]
    rfl

theorem sum_map_ite_eq {Index : Type*} [DecidableEq Index] {indices : List Index}
    (nodup : indices.Nodup) (chosen : Index) (value : Index → Value) :
    (indices.map fun index => if index = chosen then value index else 0).sum =
      if chosen ∈ indices then value chosen else 0 := by
  induction indices with
  | nil => rfl
  | cons index indices ih =>
    rw [nodup_cons] at nodup
    rw [map_cons, sum_cons, ih nodup.2]
    by_cases here : index = chosen
    · subst here
      simp [nodup.1]
    · simp [here, Ne.symm here]

theorem total_map_cell {Number : Type*} [DecidableEq Number] (number : Cell → Number)
    (updates : List (Cell × Value)) {cell : Cell}
    (separate : ∀ update ∈ updates, number update.1 = number cell → update.1 = cell) :
    total (updates.map fun update => (number update.1, update.2)) (number cell) =
      total updates cell := by
  rw [total, total, map_map]
  congr 1
  apply map_congr_left
  intro update member
  by_cases same : update.1 = cell
  · simp [same]
  · have different : number update.1 ≠ number cell :=
      fun equal => same (separate update member equal)
    simp [same, different]

section

variable {Row Sum Column : Type*} [DecidableEq Row] [DecidableEq Column]
  {rows : List Row} {columns : List Column}

theorem total_table (rowsNodup : rows.Nodup) (columnsNodup : columns.Nodup) (sums : List Sum)
    (value : Row → Sum → Column → Value) (row : Row) (column : Column) :
    total (rows.flatMap fun i => sums.flatMap fun k => columns.map fun j =>
        ((i, j), value i k j)) (row, column) =
      if row ∈ rows ∧ column ∈ columns then (sums.map fun k => value row k column).sum else 0 := by
  have line : ∀ i k, total (columns.map fun j => ((i, j), value i k j)) (row, column) =
      if i = row then if column ∈ columns then value i k column else 0 else 0 := by
    intro i k
    rw [total, map_map, ← sum_map_ite_eq columnsNodup column (value i k)]
    by_cases same : i = row
    · simp [same, comp_def]
    · simp [same, comp_def]
  have block : ∀ i, (sums.map fun k => if i = row then
      if column ∈ columns then value i k column else 0 else 0).sum =
        if i = row then if column ∈ columns then (sums.map fun k => value i k column).sum
          else 0 else 0 := by
    intro i
    split
    · split
      · rfl
      · simp
    · simp
  simp only [total_flatMap, line, block]
  rw [sum_map_ite_eq rowsNodup row, ite_and]

end

end

def overwrite (value : Cell → Value) (memory : Cell → Value) (cells : List Cell) : Cell → Value :=
  cells.foldl (fun memory cell => Function.update memory cell (value cell)) memory

theorem overwrite_apply (value memory : Cell → Value) (cells : List Cell) (cell : Cell) :
    overwrite value memory cells cell = if cell ∈ cells then value cell else memory cell := by
  induction cells generalizing memory with
  | nil => rfl
  | cons first cells ih =>
    have rest := ih (Function.update memory first (value first))
    rw [overwrite] at rest
    rw [overwrite, foldl_cons, rest]
    by_cases later : cell ∈ cells
    · simp [later]
    · by_cases here : cell = first
      · subst here
        simp
      · simp [later, here]

end BitsAndBytes.Accumulation
