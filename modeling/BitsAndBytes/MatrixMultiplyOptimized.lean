import BitsAndBytes.MatrixMultiply
import BitsAndBytes.SignedInt

/-! # The matrix product of `matrix_optimized.c` -/

namespace BitsAndBytes.MatrixMultiply

open Accumulation ForLoop SignedInt List Function

variable {R : Type*} [CommRing R]

def blockSize : Nat := 32

def fmadd (n : Nat) (A B C : Nat → R) : Nat × Nat × Nat → Nat → R
  | (ii, kk, jj), index =>
    if ii * n + jj ≤ index ∧ index < ii * n + jj + 4 then
      A (ii * n + kk) * B (kk * n + jj + (index - (ii * n + jj))) + C index
    else
      C index

def blockOperations (n i j : Nat) : List (Nat × Nat × Nat) :=
  (values 0 n blockSize).flatMap fun k =>
    (values i (min (i + blockSize) n) 1).flatMap fun ii =>
      (values k (min (k + blockSize) n) 1).flatMap fun kk =>
        ((values j (min (j + blockSize) n) 4).filter fun jj => decide (jj + 4 ≤ n)).map
          fun jj => (ii, kk, jj)

def operations (n : Nat) : List (Nat × Nat × Nat) :=
  (values 0 n blockSize).flatMap fun i =>
    (values 0 n blockSize).flatMap fun j => blockOperations n i j

def matrixMultiplyOptimized (n : Nat) (A B C : Nat → R) (order : List (Nat × Nat × Nat)) :
    Option (Nat → R) :=
  (checked (n * n)).map fun count =>
    order.foldl (fmadd n A B) fun index => if index < count.toNat then 0 else C index

def position (n : Nat) (cell : Nat × Nat) : Nat :=
  cell.1 * n + cell.2

def rows (n : Nat) (array : Nat → R) : Nat × Nat → R :=
  fun cell => array (position n cell)

theorem eq_of_index_eq {n i j ii jj : Nat} (first : j < n) (second : jj < n)
    (same : i * n + j = ii * n + jj) : i = ii ∧ j = jj := by
  have positive : 0 < n := by omega
  have rowEq := congrArg (· / n) same
  have columnEq := congrArg (· % n) same
  simp only [Nat.mul_comm _ n, Nat.mul_add_div positive, Nat.div_eq_of_lt first,
    Nat.div_eq_of_lt second, Nat.add_zero] at rowEq
  simp only [Nat.mul_comm _ n, Nat.mul_add_mod, Nat.mod_eq_of_lt first,
    Nat.mod_eq_of_lt second] at columnEq
  exact ⟨rowEq, columnEq⟩

def lanes (n : Nat) (A B : Nat → R) : Nat × Nat × Nat → List (Nat × R)
  | (ii, kk, jj) =>
    (values jj (jj + 4) 1).map fun j => (ii * n + j, A (ii * n + kk) * B (kk * n + j))

variable (n : Nat)

theorem fmadd_eq_accumulate (A B C : Nat → R) (operation : Nat × Nat × Nat) :
    fmadd n A B C operation = accumulate C (lanes n A B operation) := by
  obtain ⟨ii, kk, jj⟩ := operation
  funext index
  rw [accumulate_apply, total, lanes, map_map]
  by_cases below : ii * n ≤ index
  · have column : ∀ j, ii * n + j = index ↔ j = index - ii * n := by
      intro j
      omega
    have stored : index - ii * n ∈ values jj (jj + 4) 1 ↔
        ii * n + jj ≤ index ∧ index < ii * n + jj + 4 := by
      rw [mem_values_one]
      omega
    simp only [comp_def, column]
    rw [Accumulation.sum_map_ite_eq nodup_values_one, fmadd]
    simp only [stored]
    split
    case isTrue inside =>
      have offset : kk * n + jj + (index - (ii * n + jj)) = kk * n + (index - ii * n) := by
        omega
      rw [offset, add_comm]
    case isFalse => rw [add_zero]
  · have column : ∀ j, ii * n + j ≠ index := by
      intro j
      omega
    have outside : ¬ (ii * n + jj ≤ index ∧ index < ii * n + jj + 4) := by omega
    simp [comp_def, column, fmadd, outside]

theorem fold_fmadd (A B C : Nat → R) (order : List (Nat × Nat × Nat)) :
    order.foldl (fmadd n A B) C = accumulate C (order.flatMap (lanes n A B)) := by
  have step : fmadd n A B = fun C operation => (lanes n A B operation).foldl addAt C := by
    funext C operation
    exact fmadd_eq_accumulate n A B C operation
  rw [accumulate, foldl_flatMap, step]

theorem guarded_values :
    (values 0 n 4).filter (fun jj => decide (jj + 4 ≤ n)) = values 0 (4 * (n / 4)) 4 := by
  have stops : min (0 + 4 * (n / 4)) n = 4 * (n / 4) := by omega
  rw [values_append (by decide) (n / 4), stops, filter_append]
  have whole : (values 0 (4 * (n / 4)) 4).filter (fun jj => decide (jj + 4 ≤ n)) =
      values 0 (4 * (n / 4)) 4 := by
    apply filter_eq_self.mpr
    intro jj member
    obtain ⟨-, below, multiple⟩ := (mem_values (by decide)).mp member
    rw [decide_eq_true_eq]
    omega
  have rest : (values (0 + 4 * (n / 4)) n 4).filter (fun jj => decide (jj + 4 ≤ n)) = [] := by
    apply filter_eq_nil_iff.mpr
    intro jj member
    have last := ((mem_values (by decide)).mp member).1
    rw [decide_eq_true_eq]
    omega
  rw [whole, rest, append_nil]

theorem guarded_columns : ((values 0 n blockSize).flatMap fun j =>
      (values j (min (j + blockSize) n) 4).filter fun jj => decide (jj + 4 ≤ n)).flatMap
        (fun jj => values jj (jj + 4) 1) = values 0 (4 * (n / 4)) 1 := by
  have grouped : (values 0 (4 * (n / 4)) 4).flatMap
      (fun jj => values jj (min (jj + 4) (4 * (n / 4))) 1) = values 0 (4 * (n / 4)) 1 :=
    flatMap_values (by decide) (by decide) (by decide)
  rw [← filter_flatMap, flatMap_values (by decide) (by decide) (by decide), guarded_values,
    ← grouped]
  apply flatMap_congr
  intro jj member
  obtain ⟨-, below, multiple⟩ := (mem_values (by decide)).mp member
  congr 1
  omega

def guardedUpdates (n : Nat) (A B : Nat × Nat → R) : List ((Nat × Nat) × R) :=
  (values 0 n 1).flatMap fun i => (values 0 n 1).flatMap fun k =>
    (values 0 (4 * (n / 4)) 1).map fun j => ((i, j), A (i, k) * B (k, j))

theorem lanes_perm (A B : Nat → R) : ((operations n).flatMap (lanes n A B)).Perm
      ((guardedUpdates n (rows n A) (rows n B)).map
        fun update => (position n update.1, update.2)) := by
  have exchanged : ((operations n).flatMap (lanes n A B)).Perm
      ((values 0 n blockSize).flatMap fun i => (values 0 n blockSize).flatMap fun k =>
        (values 0 n blockSize).flatMap fun j =>
          (values i (min (i + blockSize) n) 1).flatMap fun ii =>
            (values k (min (k + blockSize) n) 1).flatMap fun kk =>
              ((values j (min (j + blockSize) n) 4).filter fun jj =>
                decide (jj + 4 ≤ n)).flatMap fun jj => lanes n A B (ii, kk, jj)) := by
    simp only [operations, blockOperations, flatMap_assoc, flatMap_map]
    exact List.Perm.flatMap_left _ fun i _ => flatMap_comm_perm _ _ _
  have visits := flatMap_blocks_perm (values 0 n blockSize) (values 0 n blockSize)
    (values 0 n blockSize) (fun i => values i (min (i + blockSize) n) 1)
    (fun k => values k (min (k + blockSize) n) 1)
    (fun j => (values j (min (j + blockSize) n) 4).filter fun jj => decide (jj + 4 ≤ n))
    fun ii kk jj => lanes n A B (ii, kk, jj)
  rw [flatMap_values (by decide) (by decide) (by decide)] at visits
  refine (exchanged.trans visits).trans (List.Perm.of_eq ?_)
  rw [guardedUpdates, map_flatMap]
  apply flatMap_congr
  intro ii _
  rw [map_flatMap]
  apply flatMap_congr
  intro kk _
  rw [map_map, ← guarded_columns, map_flatMap]
  rfl

variable {n : Nat} {A B C result : Nat → R} {order : List (Nat × Nat × Nat)}

theorem position_injective_of_mem {A B : Nat × Nat → R} {i j : Nat} (jLt : j < n)
    {update : (Nat × Nat) × R} (member : update ∈ guardedUpdates n A B)
    (same : position n update.1 = position n (i, j)) : update.1 = (i, j) := by
  simp only [guardedUpdates, mem_flatMap, mem_map, mem_values_one] at member
  obtain ⟨row, -, sum, -, column, columnBounds, rfl⟩ := member
  simp only [position] at same
  obtain ⟨rowEq, columnEq⟩ := eq_of_index_eq (by omega) jLt same
  rw [rowEq, columnEq]

theorem optimized_entry (scheduled : order.Perm (operations n))
    (returned : matrixMultiplyOptimized n A B C order = some result) {i j : Nat} (iLt : i < n)
    (jLt : j < n) :
    result (i * n + j) = if j < 4 * (n / 4) then dot n (rows n A) (rows n B) (i, j) else 0 := by
  rw [matrixMultiplyOptimized, Option.map_eq_some_iff] at returned
  obtain ⟨count, countEq, rfl⟩ := returned
  obtain ⟨rfl, -⟩ := checked_eq_some_iff.mp countEq
  have inside : i * n + j < (n * n : Int).toNat := by
    have := Nat.mul_le_mul_right n iLt
    rw [Nat.succ_mul] at this
    omega
  have separate : ∀ update ∈ guardedUpdates n (rows n A) (rows n B),
      position n update.1 = position n (i, j) → update.1 = (i, j) :=
    fun _ member => position_injective_of_mem jLt member
  have moved := total_map_cell (position n) _ separate
  rw [fold_fmadd, accumulate_apply, if_pos inside, zero_add,
    total_perm ((scheduled.flatMap_right _).trans (lanes_perm n A B)),
    show i * n + j = position n (i, j) from rfl, moved, guardedUpdates,
    total_table nodup_values_one nodup_values_one]
  simp only [mem_values_one, Nat.zero_le, true_and, iLt]
  rfl

theorem dot_unit (positive : 0 < n) {column : Nat} :
    dot n (rows n fun index => if index = 0 then (1 : R) else 0) (rows n fun _ => 1)
      (0, column) = 1 := by
  have nodup : (values 0 n 1).Nodup := nodup_values_one
  have chosen := Accumulation.sum_map_ite_eq nodup 0 fun _ => (1 : R)
  rw [if_pos (mem_values_one.mpr ⟨Nat.le_refl 0, positive⟩)] at chosen
  simpa [dot, rows, position] using chosen

/-- The product is right exactly if N is a multiple of four and N * N fits into an `int`. -/
theorem optimized_product_eq_product_iff [Nontrivial R] (n : Nat) :
    (∀ (A B C : Nat → R) (order : List (Nat × Nat × Nat)), order.Perm (operations n) →
        ∃ result, matrixMultiplyOptimized n A B C order = some result ∧
          ∀ i < n, ∀ j < n, result (i * n + j) =
            matrixMultiply n (rows n A) (rows n B) (rows n C) (i, j)) ↔
      4 ∣ n ∧ (n * n : Int) ≤ intMax := by
  have countEq : ∀ {count : Int}, checked (n * n) = some count ↔
      (n * n : Int) = count ∧ (n * n : Int) ≤ intMax := by
    intro count
    have nonneg : (0 : Int) ≤ n * n := Int.mul_nonneg (by omega) (by omega)
    rw [checked_eq_some_iff]
    simp only [intMin]
    omega
  constructor
  · intro always
    obtain ⟨result, returned, equal⟩ := always (fun index => if index = 0 then 1 else 0)
      (fun _ => 1) (fun _ => 0) (operations n) (List.Perm.refl _)
    have small : (n * n : Int) ≤ intMax := by
      rw [matrixMultiplyOptimized, Option.map_eq_some_iff] at returned
      obtain ⟨count, computed, -⟩ := returned
      exact (countEq.mp computed).2
    refine ⟨?_, small⟩
    by_contra remainder
    have positive : 0 < n := by
      rcases Nat.eq_zero_or_pos n with rfl | positive
      · exact absurd (Nat.dvd_zero 4) remainder
      · exact positive
    have skipped := optimized_entry (List.Perm.refl _) returned positive (show n - 1 < n by omega)
    rw [if_neg (by omega)] at skipped
    have expected := equal 0 positive (n - 1) (by omega)
    rw [skipped, matrixMultiply_apply, if_pos ⟨positive, by omega⟩, dot_unit positive] at expected
    exact zero_ne_one expected
  · rintro ⟨divides, small⟩ A B C order scheduled
    obtain ⟨result, returned⟩ : ∃ result, matrixMultiplyOptimized n A B C order = some result := by
      rw [matrixMultiplyOptimized, countEq.mpr ⟨rfl, small⟩]
      exact ⟨_, rfl⟩
    refine ⟨result, returned, ?_⟩
    intro i iLt j jLt
    rw [optimized_entry scheduled returned iLt jLt, if_pos (by omega), matrixMultiply_apply,
      if_pos ⟨iLt, jLt⟩]

theorem optimized_product_eq_product_of_four :
    ∃ result, matrixMultiplyOptimized 4 (fun index => (index : Int)) (fun _ => 1) (fun _ => 7)
        (operations 4) = some result ∧
      ∀ i < 4, ∀ j < 4, result (i * 4 + j) =
        matrixMultiply 4 (rows 4 fun index => (index : Int)) (rows 4 fun _ => 1)
          (rows 4 fun _ => 7) (i, j) :=
  (optimized_product_eq_product_iff 4).mpr ⟨by decide, by decide⟩ _ _ _ _ (List.Perm.refl _)

theorem product_of_one_element_not_computed :
    ∃ result, matrixMultiplyOptimized 1 (fun _ => (1 : Int)) (fun _ => 1) (fun _ => 0)
        (operations 1) = some result ∧ result 0 = 0 ∧
      matrixMultiply 1 (rows 1 fun _ => (1 : Int)) (rows 1 fun _ => 1) (rows 1 fun _ => 0)
        (0, 0) = 1 := ⟨_, rfl, by decide, by decide⟩

end BitsAndBytes.MatrixMultiply
