import BitsAndBytes.Accumulation
import BitsAndBytes.ForLoop
import Mathlib.Algebra.Ring.Int.Defs

/-! # The matrix products of `matrix_basic.c` and `matrix_cache.c` -/

namespace BitsAndBytes.MatrixMultiply

open Accumulation ForLoop Function List

variable {R : Type*} [CommRing R]

def matrixMultiply (n : Nat) (A B C : Nat × Nat → R) : Nat × Nat → R :=
  (values 0 n 1).foldl (fun C i =>
    (values 0 n 1).foldl (fun C j =>
      (values 0 n 1).foldl (fun C k => addAt C ((i, j), A (i, k) * B (k, j)))
        (update C (i, j) 0)) C) C

def matrixMultiplyBlocked (n blockSize : Nat) (A B C : Nat × Nat → R) : Nat × Nat → R :=
  let zeroed := (values 0 n 1).foldl (fun C i =>
    (values 0 n 1).foldl (fun C j => update C (i, j) 0) C) C
  (values 0 n blockSize).foldl (fun C i =>
    (values 0 n blockSize).foldl (fun C k =>
      (values 0 n blockSize).foldl (fun C j =>
        (values i (min (i + blockSize) n) 1).foldl (fun C ii =>
          (values k (min (k + blockSize) n) 1).foldl (fun C kk =>
            (values j (min (j + blockSize) n) 1).foldl (fun C jj =>
              addAt C ((ii, jj), A (ii, kk) * B (kk, jj))) C) C) C) C) C) zeroed

def dot (n : Nat) (A B : Nat × Nat → R) (cell : Nat × Nat) : R :=
  ((values 0 n 1).map fun k => A (cell.1, k) * B (k, cell.2)).sum

def cells (n : Nat) : List (Nat × Nat) :=
  (values 0 n 1).flatMap fun i => (values 0 n 1).map fun j => (i, j)

theorem mem_cells {n : Nat} {cell : Nat × Nat} : cell ∈ cells n ↔ cell.1 < n ∧ cell.2 < n := by
  obtain ⟨i, j⟩ := cell
  simp [cells, mem_values_one]

theorem fill_entry (n : Nat) (A B C : Nat × Nat → R) (i j : Nat) :
    (values 0 n 1).foldl (fun C k => addAt C ((i, j), A (i, k) * B (k, j)))
        (update C (i, j) 0) =
      update C (i, j) (dot n A B (i, j)) := by
  have loop : (values 0 n 1).foldl (fun C k => addAt C ((i, j), A (i, k) * B (k, j)))
        (update C (i, j) 0) =
      accumulate (update C (i, j) 0)
        ((values 0 n 1).map fun k => ((i, j), A (i, k) * B (k, j))) := by
    rw [accumulate, foldl_map]
  rw [loop]
  funext cell
  rw [accumulate_apply, total, map_map]
  by_cases same : cell = (i, j)
  · subst same
    simp [dot, comp_def]
  · have different : (i, j) ≠ cell := Ne.symm same
    simp [update_of_ne same, comp_def, different]

theorem matrixMultiply_apply (n : Nat) (A B C : Nat × Nat → R) (cell : Nat × Nat) :
    matrixMultiply n A B C cell = if cell.1 < n ∧ cell.2 < n then dot n A B cell else C cell := by
  have loops : matrixMultiply n A B C = overwrite (dot n A B) C (cells n) := by
    simp only [matrixMultiply, fill_entry, overwrite, cells, foldl_flatMap, foldl_map]
  rw [loops, overwrite_apply]
  simp only [mem_cells]

def blockedUpdates (n blockSize : Nat) (A B : Nat × Nat → R) : List ((Nat × Nat) × R) :=
  (values 0 n blockSize).flatMap fun i =>
    (values 0 n blockSize).flatMap fun k =>
      (values 0 n blockSize).flatMap fun j =>
        (values i (min (i + blockSize) n) 1).flatMap fun ii =>
          (values k (min (k + blockSize) n) 1).flatMap fun kk =>
            (values j (min (j + blockSize) n) 1).map fun jj =>
              ((ii, jj), A (ii, kk) * B (kk, jj))

theorem matrixMultiplyBlocked_eq (n blockSize : Nat) (A B C : Nat × Nat → R) :
    matrixMultiplyBlocked n blockSize A B C =
      accumulate (overwrite (fun _ => 0) C (cells n)) (blockedUpdates n blockSize A B) := by
  simp only [matrixMultiplyBlocked, overwrite, cells, accumulate, blockedUpdates,
    foldl_flatMap, foldl_map]

theorem blockedUpdates_perm {blockSize : Nat} (positive : 0 < blockSize) (n : Nat)
    (A B : Nat × Nat → R) :
    (blockedUpdates n blockSize A B).Perm
      ((values 0 n 1).flatMap fun ii => (values 0 n 1).flatMap fun kk =>
        (values 0 n 1).map fun jj => ((ii, jj), A (ii, kk) * B (kk, jj))) := by
  have visits := flatMap_blocks_perm (values 0 n blockSize) (values 0 n blockSize)
    (values 0 n blockSize) (fun i => values i (min (i + blockSize) n) 1)
    (fun k => values k (min (k + blockSize) n) 1) (fun j => values j (min (j + blockSize) n) 1)
    fun ii kk jj => [((ii, jj), A (ii, kk) * B (kk, jj))]
  rw [flatMap_values Nat.one_pos positive (Nat.one_dvd blockSize)] at visits
  simp only [← map_eq_flatMap] at visits
  exact visits

/-- The blocked loops leave in C what the triple loop leaves there. -/
theorem blocked_product_eq_product (n blockSize : Nat) (positive : 1 ≤ blockSize)
    (A B C : Nat × Nat → R) :
    matrixMultiplyBlocked n blockSize A B C = matrixMultiply n A B C := by
  funext cell
  rw [matrixMultiplyBlocked_eq, accumulate_apply, overwrite_apply,
    total_perm (blockedUpdates_perm positive n A B),
    total_table nodup_values_one nodup_values_one, matrixMultiply_apply]
  simp only [mem_cells, mem_values_one, Nat.zero_le, true_and]
  split
  · rw [zero_add]
    rfl
  · rw [add_zero]

theorem blocked_product_eq_product_of_three :
    matrixMultiplyBlocked 3 2 (fun cell => (cell.1 : Int)) (fun cell => (cell.2 : Int))
        (fun _ => 7) =
      matrixMultiply 3 (fun cell => (cell.1 : Int)) (fun cell => (cell.2 : Int)) fun _ => 7 :=
  blocked_product_eq_product 3 2 (by decide) _ _ _

end BitsAndBytes.MatrixMultiply
