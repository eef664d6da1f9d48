import Mathlib.Data.List.Perm.Basic

/-! # Queues at the beginning of an array -/

namespace BitsAndBytes

open Function List

structure ArrayQueue (Value : Type*) where
  cells : Nat → Value
  count : Nat

namespace ArrayQueue

variable {Value : Type*} {queue next : ArrayQueue Value} {value : Value} {rest : List Value}

def push (capacity : Nat) (queue : ArrayQueue Value) (value : Value) : Option (ArrayQueue Value) :=
  if queue.count < capacity then
    some ⟨update queue.cells queue.count value, queue.count + 1⟩
  else
    none

def shift (steps : Nat) (cells : Nat → Value) : Nat → Value :=
  (range steps).foldl (fun cells j => update cells j (cells (j + 1))) cells

def removeFirst (queue : ArrayQueue Value) : ArrayQueue Value :=
  ⟨shift (queue.count - 1) queue.cells, queue.count - 1⟩

def contents (queue : ArrayQueue Value) : List Value :=
  (range queue.count).map queue.cells

@[simp]
theorem length_contents (queue : ArrayQueue Value) : queue.contents.length = queue.count := by
  simp [contents]

theorem contents_eq_nil_iff : queue.contents = [] ↔ queue.count = 0 := by
  rw [← length_eq_zero_iff, length_contents]

theorem push_eq_some {capacity : Nat} (pushed : queue.push capacity value = some next) :
    queue.count < capacity ∧ next.contents = queue.contents ++ [value] := by
  rw [push, Option.ite_none_right_eq_some] at pushed
  obtain ⟨room, ⟨⟩⟩ := pushed
  refine ⟨room, ?_⟩
  simp only [contents, range_succ, map_append, map_singleton, update_self]
  congr 1
  refine map_congr_left fun index member => ?_
  exact update_of_ne (Nat.ne_of_lt (mem_range.mp member)) _ _

theorem exists_push {capacity : Nat} (room : queue.count < capacity) (value : Value) :
    ∃ next, queue.push capacity value = some next := ⟨_, if_pos room⟩

theorem shift_apply (steps : Nat) (cells : Nat → Value) (j : Nat) :
    shift steps cells j = if j < steps then cells (j + 1) else cells j := by
  induction steps generalizing j with
  | zero => rfl
  | succ steps ih =>
    have step : shift (steps + 1) cells =
        update (shift steps cells) steps (shift steps cells (steps + 1)) := by
      simp [shift, range_succ]
    rw [step]
    by_cases last : j = steps
    · subst last
      rw [update_self, ih, if_neg (by omega), if_pos (by omega)]
    · rw [update_of_ne last, ih]
      by_cases before : j < steps
      · rw [if_pos before, if_pos (by omega)]
      · rw [if_neg before, if_neg (by omega)]

theorem contents_eq_cons (notEmpty : queue.count ≠ 0) :
    queue.contents = queue.cells 0 :: queue.removeFirst.contents := by
  obtain ⟨others, count⟩ := Nat.exists_eq_succ_of_ne_zero notEmpty
  rw [contents, count, range_succ_eq_map, map_cons, map_map]
  congr 1
  rw [contents, removeFirst, count, Nat.succ_sub_one]
  refine map_congr_left fun index member => ?_
  exact ((shift_apply _ _ _).trans (if_pos (mem_range.mp member))).symm

def removeAt (queue : ArrayQueue Value) (index : Nat) : ArrayQueue Value :=
  ⟨update queue.cells index (queue.cells (queue.count - 1)), queue.count - 1⟩

theorem map_update_range (cells : Nat → Value) (index count : Nat) (value : Value) :
    (range count).map (update cells index value) = ((range count).map cells).set index value := by
  apply ext_getElem
  · simp
  · intro place placeLt _
    by_cases same : place = index
    · subst same
      simp
    · simp [update_of_ne same, getElem_set_ne (Ne.symm same)]

theorem contents_perm_removeAt {index : Nat} (inside : index < queue.count) :
    queue.contents.Perm (queue.cells index :: (queue.removeAt index).contents) := by
  obtain ⟨others, count⟩ := Nat.exists_eq_succ_of_ne_zero (Nat.ne_zero_of_lt inside)
  have whole : queue.contents = (range others).map queue.cells ++ [queue.cells others] := by
    rw [contents, count, range_succ, map_append, map_singleton]
  have removed : (queue.removeAt index).contents =
      ((range others).map queue.cells).set index (queue.cells others) := by
    rw [contents, removeAt, count, Nat.succ_sub_one, map_update_range]
  rw [whole, removed]
  by_cases last : index = others
  · have outside : ((range others).map queue.cells).length ≤ index := by simp [last]
    rw [set_eq_of_length_le outside, last]
    exact perm_append_singleton _ _
  · have bound : index < ((range others).map queue.cells).length := by
      rw [length_map, length_range]
      omega
    have value : ((range others).map queue.cells)[index] = queue.cells index := by simp
    calc
      List.Perm _ (queue.cells others :: (range others).map queue.cells) :=
        perm_append_singleton _ _
      List.Perm _ (queue.cells others :: queue.cells index ::
          ((range others).map queue.cells).eraseIdx index) := by
        rw [← value]
        exact (getElem_cons_eraseIdx_perm bound).symm.cons _
      List.Perm _ (queue.cells index :: queue.cells others ::
          ((range others).map queue.cells).eraseIdx index) := List.Perm.swap _ _ _
      List.Perm _ (queue.cells index ::
          ((range others).map queue.cells).set index (queue.cells others)) :=
        (set_perm_cons_eraseIdx bound _).symm.cons _

end ArrayQueue

end BitsAndBytes
