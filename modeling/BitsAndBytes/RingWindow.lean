import Mathlib.Data.List.Range
import Mathlib.Data.Int.ModEq

/-! # Windows of a ring of cells -/

namespace BitsAndBytes.RingWindow

open Function List

variable {Value : Type*}

def window (cells : Int → Value) (size head : Int) (count : Nat) : List Value :=
  (range count).map fun offset : Nat => cells ((head + offset) % size)

variable {count : Int}

section

variable (cells : Int → Value) (size head : Int)
include cells size head

@[simp]
theorem length_window (count : Nat) : (window cells size head count).length = count := by
  simp [window]

@[simp]
theorem window_zero : window cells size head 0 = [] := rfl

theorem length_window_toNat (nonneg : 0 ≤ count) :
    ((window cells size head count.toNat).length : Int) = count := by
  rw [length_window]
  exact Int.toNat_of_nonneg nonneg

theorem window_toNat_eq_nil_iff (nonneg : 0 ≤ count) :
    window cells size head count.toNat = [] ↔ count = 0 := by
  rw [← length_eq_zero_iff, length_window]
  omega

end

variable {size head : Int}

theorem emod_ne_of_lt {first second : Nat} (ordered : first < second)
    (below : (second : Int) < size) : (head + first) % size ≠ (head + second) % size := by
  intro same
  have divides : size ∣ (head + second) - (head + first) := Int.ModEq.dvd same
  have := Int.le_of_dvd (by omega) divides
  omega

variable (cells : Int → Value)

theorem window_append (size head : Int) (count : Nat) (notFull : (count : Int) < size)
    (value : Value) :
    window (update cells ((head + count) % size) value) size head
        (count + 1) = window cells size head count ++ [value] := by
  simp only [window, range_succ, map_append, map_cons, map_nil, update_self]
  congr 1
  apply map_congr_left
  intro offset member
  have different : (head + offset) % size ≠ (head + count) % size :=
    emod_ne_of_lt (mem_range.mp member) notFull
  exact update_of_ne different value cells

theorem window_succ (count : Nat) (nonneg : 0 ≤ head) (below : head < size) :
    window cells size head (count + 1) =
      cells head :: window cells size ((head + 1) % size) count := by
  simp only [window, range_succ_eq_map, map_cons, map_map,
    Nat.cast_zero, add_zero, Int.emod_eq_of_lt nonneg below, cons.injEq, true_and]
  apply map_congr_left
  intro offset _
  simp only [comp_apply, Nat.succ_eq_add_one, Nat.cast_add, Nat.cast_one, Int.emod_add_emod]
  rw [Int.add_assoc, Int.add_comm 1]

theorem window_push {tail : Int} (nonneg : 0 ≤ count) (notFull : count < size)
    (behind : tail = (head + count) % size) (value : Value) :
    window (update cells tail value) size head (count + 1).toNat =
      window cells size head count.toNat ++ [value] := by
  have countEq : (count.toNat : Int) = count := Int.toNat_of_nonneg nonneg
  have next : (count + 1).toNat = count.toNat + 1 := by omega
  have extended := window_append cells size head count.toNat (by omega) value
  rw [countEq, ← behind] at extended
  rw [next, extended]

theorem window_pop (headNonneg : 0 ≤ head) (below : head < size) (notEmpty : 0 < count) :
    window cells size head count.toNat =
      cells head :: window cells size ((head + 1) % size) (count - 1).toNat := by
  have countEq : count.toNat = (count - 1).toNat + 1 := by omega
  rw [countEq, window_succ cells _ headNonneg below]

/-- A ring with `count` values, the first at `head` and the next free cell at `tail`. -/
structure Positions (size head tail count : Int) : Prop where
  head_nonneg : 0 ≤ head
  head_lt : head < size
  count_nonneg : 0 ≤ count
  count_le : count ≤ size
  tail_eq : tail = (head + count) % size

namespace Positions

variable {tail : Int} (positions : Positions size head tail count)
include positions

theorem size_pos : 0 < size :=
  Int.lt_of_le_of_lt positions.head_nonneg positions.head_lt

theorem tail_nonneg : 0 ≤ tail :=
  positions.tail_eq ▸ Int.emod_nonneg _ positions.size_pos.ne.symm

theorem tail_lt : tail < size :=
  positions.tail_eq ▸ Int.emod_lt_of_pos _ positions.size_pos

theorem tmod_head : (head + 1).tmod size = (head + 1) % size :=
  Int.tmod_eq_emod_of_nonneg (Int.le_add_one positions.head_nonneg)

theorem push (notFull : count ≠ size) : Positions size head ((tail + 1).tmod size) (count + 1) := by
  have tail_nonneg := positions.tail_nonneg
  obtain ⟨head_nonneg, head_lt, count_nonneg, count_le, tail_eq⟩ := positions
  refine ⟨head_nonneg, head_lt, by omega, by omega, ?_⟩
  rw [Int.tmod_eq_emod_of_nonneg (by omega), tail_eq, Int.emod_add_emod, Int.add_assoc]

theorem pop (notEmpty : count ≠ 0) : Positions size ((head + 1).tmod size) tail (count - 1) := by
  have size_pos := positions.size_pos
  rw [positions.tmod_head]
  obtain ⟨head_nonneg, head_lt, count_nonneg, count_le, tail_eq⟩ := positions
  refine ⟨Int.emod_nonneg _ size_pos.ne.symm, Int.emod_lt_of_pos _ size_pos, by omega, by omega, ?_⟩
  rw [tail_eq, Int.emod_add_emod]
  congr 1
  omega

theorem window_push (notFull : count ≠ size) (value : Value) :
    window (update cells tail value) size head (count + 1).toNat =
      window cells size head count.toNat ++ [value] := by
  have count_le := positions.count_le
  exact RingWindow.window_push cells positions.count_nonneg (by omega) positions.tail_eq value

theorem window_pop (notEmpty : count ≠ 0) : window cells size head count.toNat =
      cells head :: window cells size ((head + 1).tmod size) (count - 1).toNat := by
  have count_nonneg := positions.count_nonneg
  rw [positions.tmod_head]
  exact RingWindow.window_pop cells positions.head_nonneg positions.head_lt (by omega)

end Positions

end BitsAndBytes.RingWindow
