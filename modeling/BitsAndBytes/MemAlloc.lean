import BitsAndBytes.LinkedTraversal
import BitsAndBytes.OperationRuns

/-! # The pool allocator of `mem_alloc.c` -/

namespace BitsAndBytes.MemAlloc

open LinkedTraversal OperationRuns

def memorySize : Nat := 1024

def minAllocation : Nat := 16

def sizeofBlock : Nat := 24

inductive AllocationStrategy
  | firstFit
  | bestFit
  | worstFit
deriving DecidableEq, Repr

structure Block where
  size : Nat
  isFree : Bool
  next : Option Nat
deriving DecidableEq, Repr

structure Pool where
  block : Nat → Block
  head : Option Nat

def Pool.setBlock (pool : Pool) (offset : Nat) (header : Block) : Pool :=
  { pool with block := Function.update pool.block offset header }

def initMemory (pool : Pool) : Pool :=
  { pool.setBlock 0 ⟨memorySize - sizeofBlock, true, none⟩ with head := some 0 }

def roundRequest (size : UInt64) : UInt64 :=
  (size + 16 - 1) &&& ~~~(16 - 1)

def splitBlock (pool : Pool) (block size : Nat) : Pool × Nat :=
  let header := pool.block block
  if size + sizeofBlock + minAllocation < header.size then
    let newBlock := block + sizeofBlock + size
    let pool := pool.setBlock newBlock
      ⟨header.size - size - sizeofBlock, true, header.next⟩
    (pool.setBlock block ⟨size, false, some newBlock⟩, block + sizeofBlock)
  else
    (pool.setBlock block { header with isFree := false }, block + sizeofBlock)

def Pool.fits (pool : Pool) (size current : Nat) : Bool :=
  (pool.block current).isFree && decide (size ≤ (pool.block current).size)

def firstFit (pool : Pool) (size : Nat) : Option (Option Nat) :=
  traverse (fun current => (pool.block current).next)
    (fun _ current =>
      if pool.fits size current then .done (some current) else .yield none)
    memorySize pool.head none

def extremeFitBody (pool : Pool) (better : Nat → Nat → Bool) (size : Nat)
    (best : Nat × Option Nat) (current : Nat) : ForInStep (Nat × Option Nat) :=
  if pool.fits size current then
    if better (pool.block current).size best.1 then
      .yield ((pool.block current).size, some current)
    else
      .yield best
  else
    .yield best

def extremeFit (pool : Pool) (better : Nat → Nat → Bool) (seed size : Nat) : Option (Option Nat) :=
  (traverse (fun current => (pool.block current).next)
    (extremeFitBody pool better size) memorySize pool.head
    (seed, none)).map Prod.snd

def bestFit (pool : Pool) (size : Nat) : Option (Option Nat) :=
  extremeFit pool (fun current minSize => decide (current < minSize))
    (memorySize + 1) size

def worstFit (pool : Pool) (size : Nat) : Option (Option Nat) :=
  extremeFit pool (fun current maxSize => decide (maxSize < current)) 0 size

def selectBlock (pool : Pool) (size : Nat) : AllocationStrategy → Option (Option Nat)
  | .firstFit => firstFit pool size
  | .bestFit => bestFit pool size
  | .worstFit => worstFit pool size

def allocateMemory (pool : Pool) (size : UInt64)
    (strategy : AllocationStrategy) : Option (Pool × Option Nat) :=
  let size := (roundRequest size).toNat
  (selectBlock pool size strategy).map fun
    | some block =>
      ((splitBlock pool block size).1, some (splitBlock pool block size).2)
    | none => (pool, none)

def absorb (pool : Pool) (target victim : Nat) : Pool :=
  pool.setBlock target
    { pool.block target with
      size := (pool.block target).size + (sizeofBlock + (pool.block victim).size)
      next := (pool.block victim).next }

def mergeNext (pool : Pool) (block : Nat) : Pool :=
  match (pool.block block).next with
  | some next => if (pool.block next).isFree then absorb pool block next else pool
  | none => pool

def findPrevious (pool : Pool) (block : Nat) : Option (Option Nat) :=
  traverse (fun prev => (pool.block prev).next)
    (fun _ prev =>
      if (pool.block prev).next = some block then .done (some prev)
      else .yield none)
    memorySize pool.head none

def mergePrevious (pool : Pool) (block : Nat) : Option Nat → Pool
  | some prev => if (pool.block prev).isFree then absorb pool prev block else pool
  | none => pool

def freeMemory (pool : Pool) : Option Nat → Option Pool
  | none => some pool
  | some ptr =>
    let block := ptr - sizeofBlock
    let marked := pool.setBlock block { pool.block block with isFree := true }
    let merged := mergeNext marked block
    (findPrevious merged block).map (mergePrevious merged block)

def blockOffsets (pool : Pool) : Option (List Nat) :=
  traverse (fun current => (pool.block current).next)
    (fun found current => .yield (found ++ [current])) memorySize pool.head []

structure Client where
  pool : Pool
  live : List Nat

inductive Call
  | allocate (size : UInt64) (strategy : AllocationStrategy)
  | free (ptr : Option Nat)
deriving DecidableEq

def step (client : Client) : Call → Option (Client × Option Nat)
  | .allocate size strategy =>
    (allocateMemory client.pool size strategy).map fun outcome =>
      (⟨outcome.1, outcome.2.toList ++ client.live⟩, outcome.2)
  | .free none =>
    (freeMemory client.pool none).map fun pool => (⟨pool, client.live⟩, none)
  | .free (some ptr) =>
    if ptr ∈ client.live then
      (freeMemory client.pool (some ptr)).map fun pool =>
        (⟨pool, client.live.erase ptr⟩, none)
    else
      none

def staticPool : Pool :=
  ⟨fun _ => ⟨0, false, none⟩, none⟩

def start (pool : Pool) : Client :=
  ⟨initMemory pool, []⟩

end BitsAndBytes.MemAlloc
