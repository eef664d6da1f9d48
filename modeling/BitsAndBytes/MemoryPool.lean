import BitsAndBytes.OperationRuns
import BitsAndBytes.SignedInt
import Mathlib.Data.List.Nodup
import Mathlib.Data.List.Perm.Subperm
import Mathlib.Data.Set.BooleanAlgebra
import Mathlib.Order.CompletePartialOrder

/-! # The block pool of `memory_pool.c` -/

namespace BitsAndBytes.MemoryPool

open OperationRuns SignedInt Function List Option

def poolSize : Nat := 1024 * 1024

def blockSize : Nat := 256

def numBlocks : Nat := poolSize / blockSize

structure Pool where
  used : Nat → Bool
  numAllocations : UInt64
  numFrees : UInt64

def createPool (memory : Pool) : Pool where
  used := fun i => if i < numBlocks then false else memory.used i
  numAllocations := 0
  numFrees := 0

def firstUnused (pool : Pool) : Option Nat :=
  (range' 0 numBlocks).find? fun i => !pool.used i

def poolAlloc (pool : Pool) : Pool × Option Nat :=
  match firstUnused pool with
  | some i =>
    ({ pool with
        used := update pool.used i true
        numAllocations := pool.numAllocations + 1 },
      some (i * blockSize))
  | none => (pool, none)

/-- The value an `int` takes when it is given the quotient. -/
def blockIndex (offset : Int) : Int :=
  wrapped (offset.tdiv blockSize)

def poolFree (pool : Pool) : Option Int → Pool
  | none => pool
  | some offset =>
    if 0 ≤ blockIndex offset ∧ blockIndex offset < numBlocks then
      { pool with
        used := update pool.used (blockIndex offset).toNat false
        numFrees := pool.numFrees + 1 }
    else
      pool

structure Client where
  pool : Pool
  live : List Nat

inductive Call
  | poolAlloc
  | poolFree (ptr : Option Nat)
deriving DecidableEq, Repr

def step (client : Client) : Call → Option (Client × Option Nat)
  | .poolAlloc =>
    let outcome := poolAlloc client.pool
    some (⟨outcome.1, outcome.2.toList ++ client.live⟩, outcome.2)
  | .poolFree none => some (⟨poolFree client.pool none, client.live⟩, none)
  | .poolFree (some ptr) =>
    if ptr ∈ client.live then
      some (⟨poolFree client.pool (some ptr), client.live.erase ptr⟩, none)
    else
      none

def start (memory : Pool) : Client :=
  ⟨createPool memory, []⟩

variable {pool : Pool} {i j : Nat}

theorem firstUnused_eq_some (found : firstUnused pool = some i) :
    i < numBlocks ∧ pool.used i = false := by
  rw [firstUnused, find?_range'_eq_some] at found
  obtain ⟨unused, member, -⟩ := found
  rw [mem_range'_1, Nat.zero_add] at member
  exact ⟨member.2, by simpa using unused⟩

theorem firstUnused_eq_none_iff :
    firstUnused pool = none ↔ ∀ i < numBlocks, pool.used i := by
  rw [firstUnused, find?_range'_eq_none]
  simp

theorem blockIndex_mul (inside : i < numBlocks) : blockIndex ((i * blockSize : Nat) : Int) = i := by
  have positive : (blockSize : Int) ≠ 0 := by decide
  have small : i < 4096 := inside
  rw [blockIndex, Int.natCast_mul, Int.mul_tdiv_cancel _ positive]
  exact wrapped_eq_self (by unfold intMin; omega) (by unfold intMax; omega)

/-- The used blocks are those of the live pointers, and the counters count them. -/
structure Consistent (client : Client) : Prop where
  nodup : client.live.Nodup
  block : ∀ ptr ∈ client.live, ∃ i < numBlocks, ptr = i * blockSize
  used_iff : ∀ i < numBlocks, client.pool.used i ↔ i * blockSize ∈ client.live
  counted : client.pool.numAllocations = client.pool.numFrees + UInt64.ofNat client.live.length

theorem consistent_start (memory : Pool) : Consistent (start memory) := by
  constructor
  · exact nodup_nil
  · intro ptr member
    cases member
  · intro i inside
    simp [start, createPool, inside]
  · rfl

theorem mul_blockSize_injective (same : i * blockSize = j * blockSize) : i = j :=
  Nat.eq_of_mul_eq_mul_right (by decide) same

namespace Consistent

variable {client : Client} (consistent : Consistent client)
include consistent

theorem alloc (inside : i < numBlocks) (unused : client.pool.used i = false) :
    Consistent ⟨{ client.pool with
        used := update client.pool.used i true
        numAllocations := client.pool.numAllocations + 1 }, i * blockSize :: client.live⟩ := by
  constructor
  · rw [nodup_cons]
    refine ⟨fun live => ?_, consistent.nodup⟩
    rw [(consistent.used_iff i inside).mpr live] at unused
    cases unused
  · intro ptr member
    rcases mem_cons.mp member with rfl | member
    · exact ⟨i, inside, rfl⟩
    · exact consistent.block ptr member
  · intro j jInside
    by_cases same : j = i
    · subst same
      simp
    · have different : j * blockSize ≠ i * blockSize :=
        fun equal => same (mul_blockSize_injective equal)
      simp only [update_of_ne same, mem_cons, different, false_or]
      exact consistent.used_iff j jInside
  · simp only [consistent.counted, length_cons, UInt64.ofNat_add, UInt64.add_assoc]
    rfl

theorem free {ptr : Nat} (live : ptr ∈ client.live) :
    Consistent ⟨poolFree client.pool (some ptr), client.live.erase ptr⟩ := by
  obtain ⟨i, inside, rfl⟩ := consistent.block ptr live
  have freed : poolFree client.pool (some (i * blockSize : Nat)) = { client.pool with
        used := update client.pool.used i false
        numFrees := client.pool.numFrees + 1 } := by
    have bounds : 0 ≤ (i : Int) ∧ (i : Int) < numBlocks := by omega
    rw [poolFree, blockIndex_mul inside, if_pos bounds, Int.toNat_natCast]
  rw [freed]
  constructor
  · exact consistent.nodup.erase _
  · intro ptr member
    exact consistent.block ptr (mem_of_mem_erase member)
  · intro j jInside
    rw [consistent.nodup.mem_erase_iff]
    by_cases same : j = i
    · subst same
      simp
    · have different : j * blockSize ≠ i * blockSize :=
        fun equal => same (mul_blockSize_injective equal)
      simp only [update_of_ne same, ne_eq, different, not_false_eq_true, true_and]
      exact consistent.used_iff j jInside
  · have length : client.live.length = 1 + (client.live.erase (i * blockSize)).length := by
      have positive := length_pos_of_mem live
      rw [length_erase_of_mem live]
      omega
    simp only [consistent.counted, length, UInt64.ofNat_add, UInt64.add_assoc]
    rfl

theorem step {next : Client} {call : Call} {out : Option Nat}
    (stepEq : step client call = some (next, out)) : Consistent next := by
  cases call with
  | poolAlloc =>
    cases found : firstUnused client.pool with
    | none =>
      simp only [MemoryPool.step, poolAlloc, found, some.injEq, Prod.mk.injEq] at stepEq
      rw [← stepEq.1]
      exact consistent
    | some i =>
      obtain ⟨inside, unused⟩ := firstUnused_eq_some found
      simp only [MemoryPool.step, poolAlloc, found, some.injEq, Prod.mk.injEq] at stepEq
      rw [← stepEq.1]
      exact consistent.alloc inside unused
  | poolFree ptr =>
    cases ptr with
    | none =>
      simp only [MemoryPool.step, some.injEq, Prod.mk.injEq] at stepEq
      rw [← stepEq.1]
      exact consistent
    | some ptr =>
      simp only [MemoryPool.step, ite_none_right_eq_some, some.injEq, Prod.mk.injEq] at stepEq
      obtain ⟨live, rfl, -⟩ := stepEq
      exact consistent.free live

theorem length_live_le : client.live.length ≤ numBlocks := by
  have contained : client.live ⊆ (range numBlocks).map (· * blockSize) := by
    intro ptr member
    obtain ⟨i, inside, rfl⟩ := consistent.block ptr member
    exact mem_map_of_mem (mem_range.mpr inside)
  have shorter := (subperm_of_subset consistent.nodup contained).length_le
  rwa [length_map, length_range] at shorter

theorem poolAlloc_eq_none_iff :
    (poolAlloc client.pool).2 = none ↔ ∀ i < numBlocks, i * blockSize ∈ client.live := by
  have all : firstUnused client.pool = none ↔ ∀ i < numBlocks, i * blockSize ∈ client.live := by
    rw [firstUnused_eq_none_iff]
    exact forall₂_congr consistent.used_iff
  rw [← all, poolAlloc]
  cases firstUnused client.pool <;> simp

end Consistent

def blockBytes (ptr : Nat) : Set Nat :=
  Set.Ico ptr (ptr + blockSize)

theorem blockBytes_subset (inside : i < numBlocks) :
    blockBytes (i * blockSize) ⊆ Set.Ico 0 poolSize := by
  apply Set.Ico_subset_Ico (Nat.zero_le _)
  calc
    i * blockSize + blockSize = (i + 1) * blockSize := (Nat.succ_mul i blockSize).symm
    _ ≤ numBlocks * blockSize := Nat.mul_le_mul_right _ inside
    _ = poolSize := rfl

theorem blockBytes_disjoint (different : i ≠ j) :
    Disjoint (blockBytes (i * blockSize)) (blockBytes (j * blockSize)) := by
  rw [Set.disjoint_left]
  rintro byte ⟨fromI, belowI⟩ ⟨fromJ, belowJ⟩
  simp only [blockSize] at fromI belowI fromJ belowJ
  omega

/-- Exactly the live blocks are marked, and the counters differ by their number. -/
theorem pool_tracks_live_blocks (memory : Pool) (calls : List Call) (client : Client)
    (reached : Reaches step (start memory) calls client) :
    client.live.Nodup ∧
      (∀ ptr ∈ client.live, blockSize ∣ ptr ∧ blockBytes ptr ⊆ Set.Ico 0 poolSize) ∧
      (∀ ptr ∈ client.live, ∀ other ∈ client.live, ptr ≠ other →
        Disjoint (blockBytes ptr) (blockBytes other)) ∧
      (∀ i < numBlocks, client.pool.used i ↔ i * blockSize ∈ client.live) ∧
      ((poolAlloc client.pool).2 = none ↔ ∀ i < numBlocks, i * blockSize ∈ client.live) ∧
      (client.pool.numAllocations - client.pool.numFrees).toNat = client.live.length := by
  have consistent : Consistent client :=
    reached.invariant Consistent (fun consistent => consistent.step) (consistent_start memory)
  refine ⟨consistent.nodup, ?_, ?_, consistent.used_iff, consistent.poolAlloc_eq_none_iff, ?_⟩
  · intro ptr member
    obtain ⟨i, inside, rfl⟩ := consistent.block ptr member
    exact ⟨Nat.dvd_mul_left blockSize i, blockBytes_subset inside⟩
  · intro ptr member other otherMember different
    obtain ⟨i, -, rfl⟩ := consistent.block ptr member
    obtain ⟨j, -, rfl⟩ := consistent.block other otherMember
    apply blockBytes_disjoint
    rintro rfl
    exact different rfl
  · have few := consistent.length_live_le
    have small : numBlocks < 2 ^ 64 := by decide
    rw [consistent.counted, UInt64.add_comm, UInt64.add_sub_cancel, UInt64.toNat_ofNat_of_lt']
    exact lt_of_le_of_lt few small

theorem pool_tracks_reused_block : ∃ client, Reaches step (start ⟨fun _ => true, 0, 0⟩)
        [.poolAlloc, .poolAlloc, .poolFree (some 0), .poolAlloc] client ∧
      client.live = [0, 256] ∧ (client.pool.numAllocations - client.pool.numFrees).toNat = 2 := by
  have reached : Reaches step (start ⟨fun _ => true, 0, 0⟩)
      [.poolAlloc, .poolAlloc, .poolFree (some 0), .poolAlloc] _ := ⟨_, rfl⟩
  obtain ⟨-, -, -, -, -, counted⟩ := pool_tracks_live_blocks _ _ _ reached
  exact ⟨_, reached, rfl, counted⟩

def ptrdiff (ptr memory : UInt64) : Int :=
  ((ptr.toNat : Int) - memory.toNat).bmod 18446744073709551616

def poolFreeAt (memory : UInt64) (pool : Pool) (ptr : UInt64) : Pool :=
  poolFree pool (if ptr = 0 then none else some (ptrdiff ptr memory))

/-- `pool_free` takes the offset for one of a block. -/
def TakenForBlock (offset : Int) : Prop :=
  (if 0 ≤ offset then offset else offset + 255) % 1099511627776 < 1048576

instance (offset : Int) : Decidable (TakenForBlock offset) :=
  inferInstanceAs (Decidable (_ < _))

theorem tdiv_blockSize (offset : Int) :
    offset.tdiv blockSize = (if 0 ≤ offset then offset else offset + 255) / 256 := by
  have size : (blockSize : Int) = 256 := rfl
  rw [Int.tdiv_eq_ediv, size]
  have sign : Int.sign 256 = 1 := rfl
  split <;> split <;> omega

theorem blockIndex_inside_iff (offset : Int) :
    (0 ≤ blockIndex offset ∧ blockIndex offset < numBlocks) ↔ TakenForBlock offset := by
  have blocks : (numBlocks : Int) = 4096 := rfl
  rw [blockIndex, wrapped, tdiv_blockSize, TakenForBlock, blocks, Int.bmod_def]
  generalize (if 0 ≤ offset then offset else offset + 255) = rounded
  split <;> omega

theorem poolFree_eq_self_iff (pool : Pool) (offset : Int) :
    poolFree pool (some offset) = pool ↔ ¬ TakenForBlock offset := by
  rw [← blockIndex_inside_iff, poolFree]
  split
  · rename_i inside
    refine iff_of_false (fun same => ?_) (not_not_intro inside)
    have counted : pool.numFrees + 1 = pool.numFrees := congrArg Pool.numFrees same
    exact absurd (UInt64.add_eq_left.mp counted) (by decide)
  · rename_i outside
    exact iff_of_true rfl outside

/-- `pool_free` has no effect exactly if the offset is not taken for that of a block. -/
theorem pool_free_unchanged_iff (pool : Pool) (memory : UInt64) {ptr : UInt64}
    (notNull : ptr ≠ 0) :
    poolFreeAt memory pool ptr = pool ↔ ¬ TakenForBlock (ptrdiff ptr memory) := by
  rw [poolFreeAt, if_neg notNull]
  exact poolFree_eq_self_iff pool (ptrdiff ptr memory)

theorem pool_free_behind_pool_unchanged : (1114112 : UInt64) ≠ 0 ∧
      poolFreeAt 65536 (createPool ⟨fun _ => true, 0, 0⟩) 1114112 =
        createPool ⟨fun _ => true, 0, 0⟩ := by
  refine ⟨by decide, (pool_free_unchanged_iff _ 65536 (by decide)).mpr ?_⟩
  decide

theorem pool_free_before_pool_frees_block :
    ∃ client, Reaches step (start ⟨fun _ => false, 0, 0⟩) [.poolAlloc] client ∧
      (65535 : UInt64) ≠ 0 ∧ (65535 : UInt64) < 65536 ∧
      client.pool.used 0 ∧ client.pool.numFrees = 0 ∧
      (poolFreeAt 65536 client.pool 65535).used 0 = false ∧
      (poolFreeAt 65536 client.pool 65535).numFrees = 1 := by
  refine ⟨_, ⟨_, rfl⟩, by decide, by decide, rfl, rfl, ?_, ?_⟩
  · decide
  · decide

end BitsAndBytes.MemoryPool
