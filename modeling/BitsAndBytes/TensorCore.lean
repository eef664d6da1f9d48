import BitsAndBytes.Accumulation
import BitsAndBytes.ForLoop
import BitsAndBytes.SignedInt
import Mathlib.Data.Matrix.Mul

/-! # The blocked matrix product of `matrix_mul.c` -/

namespace BitsAndBytes.TensorCore

open Accumulation ForLoop SignedInt List Function

variable {R : Type*} [Semiring R]

def blockSize : Nat := 32

/-- An index of a matrix; the product of type `int` is not larger than the sum. -/
def place (row columns column : Nat) : Option Nat :=
  (checked ((row * columns + column : Nat) : Int)).map Int.toNat

/-- The innermost loop, over `bk`. -/
def sum (A B : Nat → R) (N K i j k bi bj : Nat) : Option R :=
  (values 0 blockSize 1).foldlM (fun sum bk =>
    (place (i + bi) K (k + bk)).bind fun a =>
      (place (k + bk) N (j + bj)).map fun b => sum + A a * B b) 0

def temp (A B : Nat → R) (N K i j : Nat) : Option (Nat × Nat → R) :=
  (values 0 K blockSize).foldlM (fun temp k =>
    (values 0 blockSize 1).foldlM (fun temp bi =>
      (values 0 blockSize 1).foldlM (fun temp bj =>
        (sum A B N K i j k bi bj).map fun sum => addAt temp ((bi, bj), sum)) temp) temp) fun _ => 0

def processBlock (A B C : Nat → R) (N K : Nat) (D : Nat → R) : Nat × Nat → Option (Nat → R)
  | (i, j) => (temp A B N K i j).bind fun temp =>
    (values 0 blockSize 1).foldlM (fun D bi =>
      (values 0 blockSize 1).foldlM (fun D bj =>
        (place (i + bi) N (j + bj)).map fun index =>
          update D index (temp (bi, bj) + C index)) D) D

def blocks (M N : Nat) : List (Nat × Nat) :=
  (values 0 M blockSize).flatMap fun i => (values 0 N blockSize).map fun j => (i, j)

def tensorCoreSimulation (A B C D : Nat → R) (N K : Nat) (order : List (Nat × Nat)) :
    Option (Nat → R) :=
  order.foldlM (processBlock A B C N K) D

/-- The indices of the three matrices are values of type `int`. -/
def Fits (M N K : Nat) : Prop :=
  M * K ≤ 2 ^ 31 ∧ K * N ≤ 2 ^ 31 ∧ M * N ≤ 2 ^ 31

def matrixOf (rows columns : Nat) (array : Nat → R) : Matrix (Fin rows) (Fin columns) R :=
  fun i j => array (i * columns + j)

variable {stop index : Nat}

section

variable {A B C : Nat → R} {M N K i j bi bj : Nat}

theorem add_blockSize_le (multiple : blockSize ∣ stop) (member : i ∈ values 0 stop blockSize) :
    i + blockSize ≤ stop := by
  obtain ⟨-, below, starts⟩ := (mem_values (by decide)).mp member
  simp only [blockSize] at *
  omega

theorem flatMap_blocks (multiple : blockSize ∣ stop) :
    ((values 0 stop blockSize).flatMap fun i => (values 0 blockSize 1).map fun b => i + b) =
      values 0 stop 1 := by
  have clipped : (values 0 stop blockSize).flatMap
      (fun i => values i (min (i + blockSize) stop) 1) = values 0 stop 1 :=
    flatMap_values (by decide) (by decide) (by decide)
  rw [← clipped]
  apply flatMap_congr
  intro i member
  have inside := add_blockSize_le multiple member
  have count : i + blockSize - i + (1 - 1) = blockSize - 0 + (1 - 1) := by omega
  rw [Nat.min_eq_left inside, values, values, count, map_add_range', Nat.add_zero]

theorem div_mod_place {row column : Nat} (inside : column < N) :
    (row * N + column) / N = row ∧ (row * N + column) % N = column := by
  rw [Nat.mul_comm]
  constructor
  · rw [Nat.mul_add_div (Nat.zero_lt_of_lt inside), Nat.div_eq_of_lt inside, Nat.add_zero]
  · rw [Nat.mul_add_mod, Nat.mod_eq_of_lt inside]

theorem row_mul_add_lt (iLt : i < M) (jLt : j < N) : i * N + j < M * N := by
  calc
    i * N + j < i * N + N := Nat.add_lt_add_left jLt _
    _ = (i + 1) * N := (Nat.succ_mul i N).symm
    _ ≤ M * N := Nat.mul_le_mul_right N iLt

theorem place_of_lt (fits : M * N ≤ 2 ^ 31) (iLt : i < M) (jLt : j < N) :
    place i N j = some (i * N + j) := by
  have inside := row_mul_add_lt iLt jLt
  rw [place, checked_eq_some_iff.mpr ⟨rfl, by unfold intMin; omega, by unfold intMax; omega⟩]
  rfl

theorem place_last (positive : 0 < M) (columns : 0 < N) (large : ¬ M * N ≤ 2 ^ 31) :
    place (M - 1) N (N - 1) = none := by
  have last : (M - 1) * N + (N - 1) + 1 = M * N := by
    rw [Nat.add_assoc, Nat.sub_add_cancel columns, ← Nat.succ_mul, Nat.succ_eq_add_one,
      Nat.sub_add_cancel positive]
  rw [place, checked, if_neg (by unfold intMax; omega)]
  rfl

theorem sum_eq (iLt : i + bi < M) (jLt : j + bj < N) {k : Nat} (kLe : k + blockSize ≤ K)
    (fits : Fits M N K) :
    sum A B N K i j k bi bj = some ((values 0 blockSize 1).map fun bk =>
      A ((i + bi) * K + (k + bk)) * B ((k + bk) * N + (j + bj))).sum := by
  rw [sum_eq_foldl, foldl_map]
  refine foldlM_eq_some_foldl (fun sum bk member => ?_) 0
  have kLt : k + bk < K := by
    have bkLt := (mem_values_one.mp member).2
    omega
  rw [place_of_lt fits.1 iLt kLt, place_of_lt fits.2.1 kLt jLt]
  rfl

theorem temp_eq (kBlocks : blockSize ∣ K) (iLe : i + blockSize ≤ M) (jLe : j + blockSize ≤ N)
    (fits : Fits M N K) :
    ∃ tile, temp A B N K i j = some tile ∧ ∀ bi < blockSize, ∀ bj < blockSize,
      tile (bi, bj) = ((values 0 K 1).map fun k =>
        A ((i + bi) * K + k) * B (k * N + (j + bj))).sum := by
  let product := fun bi k bj => ((values 0 blockSize 1).map fun bk =>
    A ((i + bi) * K + (k + bk)) * B ((k + bk) * N + (j + bj))).sum
  refine ⟨accumulate (fun _ => 0) ((values 0 K blockSize).flatMap fun k =>
    (values 0 blockSize 1).flatMap fun bi =>
      (values 0 blockSize 1).map fun bj => ((bi, bj), product bi k bj)), ?_, ?_⟩
  · simp only [accumulate, foldl_flatMap, foldl_map]
    refine foldlM_eq_some_foldl (fun _ k kMember => ?_) _
    refine foldlM_eq_some_foldl (fun _ bi biMember => ?_) _
    refine foldlM_eq_some_foldl (fun _ bj bjMember => ?_) _
    have biLt := (mem_values_one.mp biMember).2
    have bjLt := (mem_values_one.mp bjMember).2
    rw [sum_eq (by omega) (by omega) (add_blockSize_le kBlocks kMember) fits]
    rfl
  · intro bi biLt bj bjLt
    have inside : bi ∈ values 0 blockSize 1 ∧ bj ∈ values 0 blockSize 1 :=
      ⟨mem_values_one.mpr ⟨Nat.zero_le _, biLt⟩, mem_values_one.mpr ⟨Nat.zero_le _, bjLt⟩⟩
    rw [accumulate_apply, zero_add, total_perm (flatMap_comm_perm _ _ _),
      total_table nodup_values_one nodup_values_one _ product, if_pos inside,
      ← flatMap_blocks kBlocks, map_flatMap, flatMap_def, sum_flatten, map_map]
    simp only [product, map_map, comp_def]

def entry (A B C : Nat → R) (N K index : Nat) : R :=
  ((values 0 K 1).map fun k => A (index / N * K + k) * B (k * N + index % N)).sum + C index

def places (N : Nat) : Nat × Nat → List Nat
  | (i, j) => (values 0 blockSize 1).flatMap fun bi =>
    (values 0 blockSize 1).map fun bj => (i + bi) * N + (j + bj)

theorem processBlock_eq (kBlocks : blockSize ∣ K) (iLe : i + blockSize ≤ M)
    (jLe : j + blockSize ≤ N) (fits : Fits M N K) (D : Nat → R) :
    processBlock A B C N K D (i, j) = some (overwrite (entry A B C N K) D (places N (i, j))) := by
  obtain ⟨tile, tileEq, tileApply⟩ := temp_eq (A := A) (B := B) kBlocks iLe jLe fits
  rw [processBlock, tileEq, Option.bind_some, overwrite, places, foldl_flatMap]
  refine foldlM_eq_some_foldl (fun D bi biMember => ?_) D
  rw [foldl_map]
  refine foldlM_eq_some_foldl (fun D bj bjMember => ?_) D
  have biLt := (mem_values_one.mp biMember).2
  have bjLt := (mem_values_one.mp bjMember).2
  have jLt : j + bj < N := by omega
  obtain ⟨row, column⟩ := div_mod_place jLt
  rw [place_of_lt fits.2.2 (show i + bi < M by omega) jLt, entry, row, column,
    tileApply bi biLt bj bjLt]
  rfl

end

section

variable {A B C D : Nat → R} {M N K i j : Nat} {order : List (Nat × Nat)}

theorem mem_blocks : (i, j) ∈ blocks M N ↔ i ∈ values 0 M blockSize ∧ j ∈ values 0 N blockSize := by
  simp [blocks]

theorem tensorCoreSimulation_eq (mBlocks : blockSize ∣ M) (nBlocks : blockSize ∣ N)
    (kBlocks : blockSize ∣ K) (scheduled : order.Perm (blocks M N)) (fits : Fits M N K) :
    tensorCoreSimulation A B C D N K order =
      some (overwrite (entry A B C N K) D (order.flatMap (places N))) := by
  rw [overwrite, foldl_flatMap]
  refine foldlM_eq_some_foldl (fun D block member => ?_) D
  obtain ⟨i, j⟩ := block
  obtain ⟨iMember, jMember⟩ := mem_blocks.mp (scheduled.subset member)
  exact processBlock_eq kBlocks (add_blockSize_le mBlocks iMember)
    (add_blockSize_le nBlocks jMember) fits D

theorem exists_block (multiple : blockSize ∣ stop) (inside : index < stop) :
    ∃ i ∈ values 0 stop blockSize, ∃ b ∈ values 0 blockSize 1, i + b = index := by
  have member : index ∈ values 0 stop 1 := mem_values_one.mpr ⟨Nat.zero_le _, inside⟩
  rw [← flatMap_blocks multiple, mem_flatMap] at member
  obtain ⟨i, iMember, bMember⟩ := member
  exact ⟨i, iMember, mem_map.mp bMember⟩

theorem mem_places_iff (mBlocks : blockSize ∣ M) (nBlocks : blockSize ∣ N)
    (scheduled : order.Perm (blocks M N)) : index ∈ order.flatMap (places N) ↔ index < M * N := by
  rw [mem_flatMap]
  constructor
  · rintro ⟨⟨i, j⟩, member, placed⟩
    obtain ⟨iMember, jMember⟩ := mem_blocks.mp (scheduled.subset member)
    simp only [places, mem_flatMap, mem_map, mem_values_one] at placed
    obtain ⟨bi, biBounds, bj, bjBounds, rfl⟩ := placed
    have iInside := add_blockSize_le mBlocks iMember
    have jInside := add_blockSize_le nBlocks jMember
    exact row_mul_add_lt (by omega) (by omega)
  · intro inside
    have positive : 0 < N := by
      apply Nat.pos_of_ne_zero
      rintro rfl
      exact absurd inside (Nat.not_lt_zero _)
    obtain ⟨i, iMember, bi, biMember, iEq⟩ :=
      exists_block mBlocks ((Nat.div_lt_iff_lt_mul positive).mpr inside)
    obtain ⟨j, jMember, bj, bjMember, jEq⟩ := exists_block nBlocks (Nat.mod_lt index positive)
    refine ⟨(i, j), scheduled.symm.subset (mem_blocks.mpr ⟨iMember, jMember⟩), ?_⟩
    rw [places, mem_flatMap]
    refine ⟨bi, biMember, mem_map.mpr ⟨bj, bjMember, ?_⟩⟩
    rw [iEq, jEq, Nat.mul_comm, Nat.div_add_mod]

theorem sum_values (f : Nat → R) : ((values 0 K 1).map f).sum = ∑ k : Fin K, f k := by
  have range : values 0 K 1 = List.range K := by
    rw [values, range_eq_range', Nat.div_one]
    rfl
  rw [range, Fin.sum_univ_eq_sum_range]
  rfl

theorem exists_last_block (positive : 0 < stop) (multiple : blockSize ∣ stop) :
    stop - blockSize ∈ values 0 stop blockSize ∧ blockSize - 1 ∈ values 0 blockSize 1 ∧
      stop - blockSize + (blockSize - 1) = stop - 1 := by
  have large := Nat.le_of_dvd positive multiple
  refine ⟨(mem_values (by decide)).mpr ⟨Nat.zero_le _, ?_, ?_⟩,
    mem_values_one.mpr ⟨Nat.zero_le _, by decide⟩, ?_⟩
  · simp only [blockSize] at *
    omega
  · rw [Nat.sub_zero]
    exact Nat.dvd_sub multiple (dvd_refl _)
  · simp only [blockSize] at *
    omega

section

variable (mPositive : 0 < M) (nPositive : 0 < N) (kPositive : 0 < K) (mBlocks : blockSize ∣ M)
  (nBlocks : blockSize ∣ N) (kBlocks : blockSize ∣ K)
include mPositive nPositive kPositive mBlocks nBlocks kBlocks

theorem temp_eq_none (large : ¬ M * K ≤ 2 ^ 31 ∨ ¬ K * N ≤ 2 ^ 31) :
    temp A B N K (M - blockSize) (N - blockSize) = none := by
  obtain ⟨-, biMember, lastRow⟩ := exists_last_block mPositive mBlocks
  obtain ⟨-, -, lastColumn⟩ := exists_last_block nPositive nBlocks
  obtain ⟨kMember, -, lastK⟩ := exists_last_block kPositive kBlocks
  refine foldlM_eq_none kMember (fun temp => ?_) _
  refine foldlM_eq_none biMember (fun temp => ?_) _
  refine foldlM_eq_none biMember (fun temp => ?_) _
  have fails : sum A B N K (M - blockSize) (N - blockSize) (K - blockSize) (blockSize - 1)
      (blockSize - 1) = none := by
    refine foldlM_eq_none biMember (fun sum => ?_) _
    rw [lastRow, lastColumn, lastK]
    rcases large with large | large
    · rw [place_last mPositive kPositive large]
      rfl
    · rw [place_last kPositive nPositive large]
      cases place (M - 1) K (K - 1) <;> rfl
  rw [fails]
  rfl

theorem tensorCoreSimulation_eq_none (scheduled : order.Perm (blocks M N))
    (large : ¬ Fits M N K) : tensorCoreSimulation A B C D N K order = none := by
  obtain ⟨iMember, biMember, lastRow⟩ := exists_last_block mPositive mBlocks
  obtain ⟨jMember, -, lastColumn⟩ := exists_last_block nPositive nBlocks
  refine foldlM_eq_none (scheduled.symm.subset (mem_blocks.mpr ⟨iMember, jMember⟩))
    (fun D => ?_) D
  rw [processBlock]
  cases tile : temp A B N K (M - blockSize) (N - blockSize) with
  | none => rfl
  | some tile =>
    have inside : ¬ (¬ M * K ≤ 2 ^ 31 ∨ ¬ K * N ≤ 2 ^ 31) := fun outside => by
      rw [temp_eq_none mPositive nPositive kPositive mBlocks nBlocks kBlocks outside] at tile
      cases tile
    have outside : ¬ M * N ≤ 2 ^ 31 := fun small => large (by unfold Fits; omega)
    rw [Option.bind_some]
    refine foldlM_eq_none biMember (fun D => ?_) D
    refine foldlM_eq_none biMember (fun D => ?_) D
    rw [lastRow, lastColumn, place_last mPositive nPositive outside]
    rfl

end

/-- In every order of the blocks D is the product of A and B plus C, exactly if the indices of the
matrices do not overflow. -/
theorem tensor_core_simulation_eq_mul_add_iff (A B C D : Nat → R) {M N K : Nat}
    (mPositive : 0 < M) (nPositive : 0 < N) (kPositive : 0 < K)
    (mBlocks : blockSize ∣ M) (nBlocks : blockSize ∣ N) (kBlocks : blockSize ∣ K)
    {order : List (Nat × Nat)} (scheduled : order.Perm (blocks M N)) :
    (∃ result, tensorCoreSimulation A B C D N K order = some result ∧
        matrixOf M N result = matrixOf M K A * matrixOf K N B + matrixOf M N C ∧
        ∀ index, M * N ≤ index → result index = D index) ↔
      Fits M N K := by
  constructor
  · rintro ⟨result, returns, -⟩
    by_contra large
    rw [tensorCoreSimulation_eq_none mPositive nPositive kPositive mBlocks nBlocks kBlocks
      scheduled large] at returns
    cases returns
  · intro fits
    refine ⟨_, tensorCoreSimulation_eq mBlocks nBlocks kBlocks scheduled fits, ?_,
      fun index outside => ?_⟩
    · ext i j
      have inside : (i : Nat) * N + j < M * N := row_mul_add_lt i.isLt j.isLt
      obtain ⟨row, column⟩ := div_mod_place j.isLt
      rw [matrixOf, overwrite_apply, if_pos ((mem_places_iff mBlocks nBlocks scheduled).mpr inside),
        entry, row, column, sum_values, Matrix.add_apply, Matrix.mul_apply]
      rfl
    · rw [overwrite_apply, if_neg]
      rw [mem_places_iff mBlocks nBlocks scheduled]
      exact Nat.not_lt.mpr outside

theorem tensor_core_simulation_of_64 :
    Fits 64 64 32 ∧ ∃ result, tensorCoreSimulation (fun index => (index : Int)) (fun _ => 2)
        (fun _ => 1) (fun _ => 0) 64 32 (blocks 64 64).reverse = some result ∧
      matrixOf 64 64 result =
        matrixOf 64 32 (fun index => (index : Int)) * matrixOf 32 64 (fun _ => (2 : Int)) +
          matrixOf 64 64 (fun _ => (1 : Int)) := by
  have fits : Fits 64 64 32 := by
    unfold Fits
    decide
  obtain ⟨result, returns, product, -⟩ := (tensor_core_simulation_eq_mul_add_iff
    (fun index => (index : Int)) (fun _ => 2) (fun _ => 1) (fun _ => 0) (by decide) (by decide)
    (by decide) (by decide) (by decide) (by decide) (reverse_perm (blocks 64 64))).mpr fits
  exact ⟨fits, result, returns, product⟩

theorem tensor_core_simulation_index_overflows :
    blockSize ∣ 46368 ∧ tensorCoreSimulation (fun _ => (1 : Int)) (fun _ => 1) (fun _ => 1)
      (fun _ => 0) 46368 46368 (blocks 46368 46368) = none :=
  ⟨by decide, tensorCoreSimulation_eq_none (by decide) (by decide) (by decide) (by decide)
    (by decide) (by decide) (List.Perm.refl _) (by unfold Fits; decide)⟩

end

end BitsAndBytes.TensorCore
