import Mathlib.Algebra.Order.Ring.Nat
import Mathlib.Data.Multiset.Bind

/-! # Counting loops -/

namespace BitsAndBytes.ForLoop

open List Multiset

def values (start stop stride : Nat) : List Nat :=
  List.range' start ((stop - start + (stride - 1)) / stride) stride

variable {start stop stride block : Nat}

theorem values_of_le (done : stop ≤ start) : values start stop stride = [] := by
  have noIterations : (stop - start + (stride - 1)) / stride = 0 := by
    rw [Nat.sub_eq_zero_of_le done, Nat.zero_add, Nat.div_eq_zero_iff]
    omega
  rw [values, noIterations, range'_zero]

theorem values_of_lt (positive : 0 < stride) (goesOn : start < stop) :
    values start stop stride = start :: values (start + stride) stop stride := by
  have remaining : (stop - (start + stride) + (stride - 1)) / stride =
      (stop - start - 1) / stride := by
    by_cases last : stop < start + stride
    · rw [Nat.div_eq_of_lt (by omega), Nat.div_eq_of_lt (by omega)]
    · congr 1
      omega
  have oneMore : (stop - start + (stride - 1)) / stride =
      (stop - (start + stride) + (stride - 1)) / stride + 1 := by
    rw [remaining, ← Nat.add_div_right _ positive]
    congr 1
    omega
  rw [values, oneMore, range'_succ, values]

theorem mem_values (positive : 0 < stride) {i : Nat} :
    i ∈ values start stop stride ↔ start ≤ i ∧ i < stop ∧ stride ∣ i - start := by
  have before_iff : ∀ count, count < (stop - start + (stride - 1)) / stride ↔
      start + stride * count < stop := by
    intro count
    rw [← Nat.succ_le_iff, Nat.le_div_iff_mul_le positive, Nat.succ_mul, Nat.mul_comm count]
    omega
  simp only [values, mem_range', before_iff]
  constructor
  · rintro ⟨count, before, rfl⟩
    exact ⟨Nat.le_add_right _ _, before, by simp⟩
  · rintro ⟨first, before, count, distance⟩
    exact ⟨count, by omega, by omega⟩

theorem mem_values_one {i : Nat} : i ∈ values start stop 1 ↔ start ≤ i ∧ i < stop := by
  rw [values, mem_range'_1]
  omega

theorem nodup_values_one : (values start stop 1).Nodup := nodup_range'

theorem values_append (positive : 0 < stride) (count : Nat) : values start stop stride =
      values start (min (start + stride * count) stop) stride ++
        values (start + stride * count) stop stride := by
  induction count generalizing start with
  | zero => rw [Nat.mul_zero, Nat.add_zero, values_of_le (Nat.min_le_left start stop), nil_append]
  | succ count ih =>
    by_cases goesOn : start < stop
    · have firstGoesOn : start < min (start + stride * (count + 1)) stop := by
        rw [Nat.mul_succ]
        omega
      have shift : start + stride * (count + 1) = start + stride + stride * count := by
        rw [Nat.mul_succ]
        omega
      rw [values_of_lt positive firstGoesOn, shift, values_of_lt positive goesOn, cons_append, ← ih]
    · have done : stop ≤ start := Nat.le_of_not_lt goesOn
      rw [values_of_le done, values_of_le (le_trans (Nat.min_le_right _ _) done),
        values_of_le (by omega), nil_append]

theorem flatMap_values (positive : 0 < stride) (blockPositive : 0 < block)
    (divides : stride ∣ block) :
    (values start stop block).flatMap (fun i => values i (min (i + block) stop) stride) =
      values start stop stride := by
  obtain ⟨count, rfl⟩ := divides
  induction left : stop - start using Nat.strong_induction_on generalizing start with
  | _ left ih =>
    by_cases goesOn : start < stop
    · rw [values_of_lt blockPositive goesOn, flatMap_cons,
        ih (stop - (start + stride * count)) (by omega) rfl, ← values_append positive count]
    · have done : stop ≤ start := Nat.le_of_not_lt goesOn
      rw [values_of_le done, values_of_le done, flatMap_nil]

section

variable {Outer Inner Visit : Type*}

theorem flatMap_comm_perm (outer : List Outer) (inner : List Inner)
    (visits : Outer → Inner → List Visit) :
    (outer.flatMap fun a => inner.flatMap fun b => visits a b).Perm
      (inner.flatMap fun b => outer.flatMap fun a => visits a b) := by
  apply coe_eq_coe.mp
  simp only [← coe_bind]
  exact bind_bind _ _

end

section

variable {RowBlock SumBlock ColumnBlock Row Sum Column Visit : Type*}
  (rowBlocks : List RowBlock) (sumBlocks : List SumBlock) (columnBlocks : List ColumnBlock)
  (rows : RowBlock → List Row) (sums : SumBlock → List Sum)
  (columns : ColumnBlock → List Column) (visits : Row → Sum → Column → List Visit)

theorem flatMap_blocks_perm :
    (rowBlocks.flatMap fun i => sumBlocks.flatMap fun k => columnBlocks.flatMap fun j =>
      (rows i).flatMap fun ii => (sums k).flatMap fun kk => (columns j).flatMap fun jj =>
        visits ii kk jj).Perm
      ((rowBlocks.flatMap rows).flatMap fun ii => (sumBlocks.flatMap sums).flatMap fun kk =>
        (columnBlocks.flatMap columns).flatMap fun jj => visits ii kk jj) := by
  rw [flatMap_assoc]
  refine List.Perm.flatMap_left _ fun i _ => ?_
  calc
    List.Perm _ (sumBlocks.flatMap fun k => (rows i).flatMap fun ii =>
        columnBlocks.flatMap fun j => (sums k).flatMap fun kk => (columns j).flatMap fun jj =>
          visits ii kk jj) :=
      List.Perm.flatMap_left _ fun k _ => flatMap_comm_perm _ _ _
    List.Perm _ ((rows i).flatMap fun ii => sumBlocks.flatMap fun k =>
        columnBlocks.flatMap fun j => (sums k).flatMap fun kk => (columns j).flatMap fun jj =>
          visits ii kk jj) :=
      flatMap_comm_perm _ _ _
    List.Perm _ ((rows i).flatMap fun ii => sumBlocks.flatMap fun k => (sums k).flatMap fun kk =>
        columnBlocks.flatMap fun j => (columns j).flatMap fun jj => visits ii kk jj) :=
      List.Perm.flatMap_left _ fun ii _ => List.Perm.flatMap_left _ fun k _ =>
        flatMap_comm_perm _ _ _
    _ = _ := by simp only [flatMap_assoc]

end

section

variable {State Value : Type*} {body : State → Value → Option State} {loop : List Value}

theorem foldlM_eq_some_foldl {pureBody : State → Value → State}
    (each : ∀ state, ∀ value ∈ loop, body state value = some (pureBody state value))
    (state : State) : loop.foldlM body state = some (loop.foldl pureBody state) := by
  induction loop generalizing state with
  | nil => rfl
  | cons value loop ih =>
    rw [foldlM_cons, each state value mem_cons_self]
    exact ih (fun state other member => each state other (mem_cons_of_mem value member)) _

theorem foldlM_eq_none {value : Value} (member : value ∈ loop)
    (fails : ∀ state, body state value = none) (state : State) : loop.foldlM body state = none := by
  induction loop generalizing state with
  | nil => cases member
  | cons first loop ih =>
    rw [foldlM_cons]
    rcases mem_cons.mp member with rfl | later
    · rw [fails state]
      rfl
    · cases body state first with
      | none => rfl
      | some next => exact ih later next

end

end BitsAndBytes.ForLoop
