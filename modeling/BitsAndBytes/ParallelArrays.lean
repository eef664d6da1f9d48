import BitsAndBytes.ParallelLoops
import BitsAndBytes.SignedInt

/-! # The array operations of `parallel_processing.c` and `simt.c` -/

namespace BitsAndBytes.ParallelArrays

open ForLoop ParallelLoops ParallelLoops.Program

structure Launch where
  size : Nat
  threads : Nat
  size_le : size ≤ SignedInt.intMax.toNat
  threads_le : threads ≤ SignedInt.intMax.toNat
  threads_pos : 0 < threads

namespace Launch

variable (launch : Launch) (input output : Nat → Float32)

def chunkSize : Nat := launch.size / launch.threads

def parallelArrayOperation : Program (Fin launch.threads) Float32 where
  size := launch.size
  limit := SignedInt.intMax.toNat
  loop threadId :=
    let start := threadId * launch.chunkSize
    { start
      stop := if threadId.val = launch.threads - 1 then launch.size else start + launch.chunkSize
      stride := 1 }
  input
  compute value := value * 2.0 + 1.0

def simtThread : Program (Fin launch.threads) Float32 where
  size := launch.size
  limit := SignedInt.intMax.toNat
  loop threadId := { start := threadId, stop := launch.size, stride := launch.threads }
  input
  compute value := if value > 0.5 then value * value else value * 2.0

def chunkOwner (index : Nat) : Fin launch.threads :=
  if launch.chunkSize = 0 then ⟨launch.threads - 1, by have := launch.threads_pos; omega⟩
  else ⟨min (index / launch.chunkSize) (launch.threads - 1), by have := launch.threads_pos; omega⟩

theorem succ_mul_chunkSize_le {threadId : Nat} (before : threadId + 1 ≤ launch.threads) :
    threadId * launch.chunkSize + launch.chunkSize ≤ launch.size := by
  calc
    threadId * launch.chunkSize + launch.chunkSize = (threadId + 1) * launch.chunkSize :=
      (Nat.succ_mul _ _).symm
    _ ≤ launch.threads * launch.chunkSize := Nat.mul_le_mul_right _ before
    _ ≤ launch.size := Nat.mul_div_le _ _

theorem parallelArrayOperation_divides :
    (launch.parallelArrayOperation input).Divides launch.chunkOwner := by
  refine ⟨fun _ => Nat.one_pos, fun threadId => ?_, fun threadId index => ?_⟩
  · have bound := launch.succ_mul_chunkSize_le threadId.isLt
    simp only [parallelArrayOperation]
    split <;> omega
  · have bound := launch.succ_mul_chunkSize_le threadId.isLt
    simp only [parallelArrayOperation, Loop.indices, mem_values_one, chunkOwner]
    by_cases noChunks : launch.chunkSize = 0
    · simp only [noChunks, if_pos, Nat.mul_zero, Nat.add_zero, Fin.ext_iff]
      split <;> omega
    · have positive : 0 < launch.chunkSize := Nat.pos_of_ne_zero noChunks
      have from_iff : threadId * launch.chunkSize ≤ index ↔ threadId ≤ index / launch.chunkSize :=
        (Nat.le_div_iff_mul_le positive).symm
      have before_iff : index < threadId * launch.chunkSize + launch.chunkSize ↔
          index / launch.chunkSize < threadId + 1 := by
        rw [← Nat.succ_mul, Nat.div_lt_iff_lt_mul positive]
      simp only [if_neg noChunks, Fin.ext_iff, from_iff]
      split <;> omega

theorem parallelArrayOperation_once :
    (launch.parallelArrayOperation input).ProcessesEachIndexOnce output := by
  refine (launch.parallelArrayOperation_divides input).processesEachIndexOnce
    (fun threadId index member => ?_) output
  have inside := ((launch.parallelArrayOperation_divides input).mem_indices _ _).mp member
  exact Nat.le_trans inside.1 launch.size_le

def strideOwner (index : Nat) : Fin launch.threads :=
  ⟨index % launch.threads, Nat.mod_lt index launch.threads_pos⟩

theorem simtThread_divides : (launch.simtThread input).Divides launch.strideOwner := by
  refine ⟨fun _ => launch.threads_pos, fun _ => Nat.le_refl _, fun threadId index => ?_⟩
  simp only [simtThread, Loop.indices, mem_values launch.threads_pos, strideOwner, Fin.ext_iff]
  constructor
  · rintro ⟨first, inside, count, distance⟩
    have index_eq : index = threadId + launch.threads * count := by omega
    refine ⟨inside, ?_⟩
    rw [index_eq, Nat.add_mul_mod_self_left, Nat.mod_eq_of_lt threadId.isLt]
  · rintro ⟨inside, owned⟩
    rw [← owned]
    exact ⟨Nat.mod_le _ _, inside, Nat.dvd_sub_mod index⟩

theorem simtThread_once_iff : (launch.simtThread input).ProcessesEachIndexOnce output ↔
      launch.size = 0 ∨ launch.size - 1 + launch.threads ≤ SignedInt.intMax.toNat := by
  have divides := launch.simtThread_divides input
  constructor
  · intro once
    by_cases empty : launch.size = 0
    · exact .inl empty
    · have last : launch.size - 1 < launch.size := by omega
      exact .inr (once.within divides ((divides.mem_indices _ _).mpr ⟨last, rfl⟩))
  · intro fits
    refine divides.processesEachIndexOnce (fun threadId index member => ?_) output
    have inside : index < launch.size := ((divides.mem_indices _ _).mp member).1
    simp only [simtThread]
    omega

/-- Chunks cover each index once, and strides unless one cannot be added to an index. -/
theorem processesEachIndexOnce_iff :
    (launch.parallelArrayOperation input).ProcessesEachIndexOnce output ∧
      ((launch.simtThread input).ProcessesEachIndexOnce output ↔
        launch.size = 0 ∨ launch.size - 1 + launch.threads ≤ SignedInt.intMax.toNat) :=
  ⟨launch.parallelArrayOperation_once input output, launch.simtThread_once_iff input output⟩

theorem simtThread_oversteps : ∃ launch : Launch, launch.size = 2147483647 ∧
    launch.threads = 128 ∧ ∀ input output,
      ¬ (launch.simtThread input).ProcessesEachIndexOnce output := by
  refine ⟨⟨2147483647, 128, by decide, by decide, by decide⟩, rfl, rfl, fun input output once => ?_⟩
  rcases (simtThread_once_iff _ input output).mp once with empty | fits
  · exact absurd empty (by decide)
  · exact absurd fits (by decide)

end Launch

end BitsAndBytes.ParallelArrays
