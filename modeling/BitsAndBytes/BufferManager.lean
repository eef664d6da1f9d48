import BitsAndBytes.LinearProbing
import BitsAndBytes.OperationRuns
import BitsAndBytes.SignedInt

/-! # The buffer pool of `CustomBufferManagementSystem.c` -/

namespace BitsAndBytes.BufferManager

open LinearProbing OperationRuns SignedInt Function

def bufferPoolSize : Nat := 1024

def pageTableSize : Nat := 2048

structure Page where
  pageId : Int
  isDirty : Bool
  pinCount : Int
deriving DecidableEq, Repr

structure PageTableEntry where
  pageId : Int
  frameId : Int
deriving DecidableEq, Repr

@[ext]
structure Pool where
  bufferPool : Nat → Page
  pageTable : Nat → PageTableEntry
  freeList : List Nat
  clockHand : Nat
  referenceBits : Nat → Bool

def zeroedPool : Pool where
  bufferPool := fun _ => ⟨0, false, 0⟩
  pageTable := fun _ => ⟨0, 0⟩
  freeList := []
  clockHand := 0
  referenceBits := fun _ => false

def initBufferPool (pool : Pool) : Pool :=
  { pool with
    bufferPool := fun _ => ⟨-1, false, 0⟩
    freeList := (List.range bufferPoolSize).foldl (fun nodes i => i :: nodes)
      pool.freeList
    referenceBits := fun _ => false
    pageTable := fun _ => ⟨-1, -1⟩ }

def hashFunction (pageId : Int) : Int :=
  pageId.tmod pageTableSize

def firstSlot (pageId : Int) : Nat :=
  (hashFunction pageId).toNat

def lookupPage (pool : Pool) (pageId : Int) : Option Int :=
  (probe pageTableSize (fun slot => (pool.pageTable slot).pageId == -1 ||
        (pool.pageTable slot).pageId == pageId)
      pageTableSize (firstSlot pageId)).map fun slot =>
    if (pool.pageTable slot).pageId = -1 then -1 else (pool.pageTable slot).frameId

def insertIntoPageTable (pool : Pool) (pageId frameId : Int) : Option Pool :=
  (probe pageTableSize (fun slot => (pool.pageTable slot).pageId == -1)
      pageTableSize (firstSlot pageId)).map fun slot =>
    { pool with
      pageTable := update pool.pageTable slot ⟨pageId, frameId⟩ }

def removeFromPageTable (pool : Pool) (pageId : Int) : Option Pool :=
  (probe pageTableSize (fun slot => (pool.pageTable slot).pageId == pageId)
      pageTableSize (firstSlot pageId)).map fun slot =>
    { pool with
      pageTable := update pool.pageTable slot ⟨-1, -1⟩ }

def findVictimLoop : Nat → Pool → Option (Nat × Pool)
  | 0, _ => none
  | bound + 1, pool =>
    let nextHand := (pool.clockHand + 1) % bufferPoolSize
    if (pool.bufferPool pool.clockHand).pinCount = 0 then
      if pool.referenceBits pool.clockHand then
        findVictimLoop bound
          { pool with
            referenceBits :=
              update pool.referenceBits pool.clockHand false
            clockHand := nextHand }
      else
        some (pool.clockHand, { pool with clockHand := nextHand })
    else
      findVictimLoop bound { pool with clockHand := nextHand }

def findVictimPage (pool : Pool) : Option (Nat × Pool) :=
  findVictimLoop (2 * bufferPoolSize) pool

def loadPage (pool : Pool) (frame : Nat) (pageId : Int) : Option (Pool × Nat) :=
  (insertIntoPageTable { pool with
        bufferPool := update pool.bufferPool frame ⟨pageId, false, 1⟩
        referenceBits := update pool.referenceBits frame true }
      pageId frame).map fun loaded => (loaded, frame)

def hitPage (pool : Pool) (frame : Nat) : Pool :=
  { pool with
    bufferPool := update pool.bufferPool frame
      { pool.bufferPool frame with
        pinCount := wrapped ((pool.bufferPool frame).pinCount + 1) }
    referenceBits := update pool.referenceBits frame true }

def fetchPage (pool : Pool) (pageId : Int) : Option (Pool × Nat) :=
  (lookupPage pool pageId).bind fun frameId =>
    if frameId ≠ -1 then
      some (hitPage pool frameId.toNat, frameId.toNat)
    else
      match pool.freeList with
      | frame :: nodes => loadPage { pool with freeList := nodes } frame pageId
      | [] =>
        (findVictimPage pool).bind fun found =>
          (removeFromPageTable found.2 (found.2.bufferPool found.1).pageId).bind
            fun evicted => loadPage evicted found.1 pageId

def unpinPage (pool : Pool) (pageId : Int) : Option Pool :=
  (lookupPage pool pageId).map fun frameId =>
    if frameId ≠ -1 ∧ 0 < (pool.bufferPool frameId.toNat).pinCount then
      { pool with
        bufferPool := update pool.bufferPool frameId.toNat
          { pool.bufferPool frameId.toNat with
            pinCount := (pool.bufferPool frameId.toNat).pinCount - 1 } }
    else
      pool

def markPageDirty (pool : Pool) (pageId : Int) : Option Pool :=
  (lookupPage pool pageId).map fun frameId =>
    if frameId ≠ -1 then
      { pool with
        bufferPool := update pool.bufferPool frameId.toNat
          { pool.bufferPool frameId.toNat with isDirty := true } }
    else
      pool

def flushDirtyPages (pool : Pool) : Pool :=
  { pool with
    bufferPool := fun frame =>
      if frame < bufferPoolSize then
        { pool.bufferPool frame with isDirty := false }
      else
        pool.bufferPool frame }

inductive Call
  | fetchPage (page : Nat)
  | unpinPage (page : Nat)
  | markPageDirty (page : Nat)
  | flushDirtyPages
deriving DecidableEq, Repr

def step (pool : Pool) : Call → Option (Pool × Option Nat)
  | .fetchPage page =>
    (fetchPage pool page).map fun fetched => (fetched.1, some fetched.2)
  | .unpinPage page => (unpinPage pool page).map fun next => (next, none)
  | .markPageDirty page => (markPageDirty pool page).map fun next => (next, none)
  | .flushDirtyPages => some (flushDirtyPages pool, none)

theorem step_fetchPage {pool next : Pool} {page frame : Nat}
    (fetched : fetchPage pool page = some (next, frame)) :
    step pool (.fetchPage page) = some (next, some frame) := by
  rw [step, fetched]
  rfl

theorem step_unpinPage {pool next : Pool} {page : Nat}
    (unpinned : unpinPage pool page = some next) :
    step pool (.unpinPage page) = some (next, none) := by
  rw [step, unpinned]
  rfl

end BitsAndBytes.BufferManager
