import BitsAndBytes.ByteMemory
import BitsAndBytes.LinkedTraversal
import BitsAndBytes.WhileLoop

/-! # The tagged heap of `allocator.c` -/

namespace BitsAndBytes.Allocator

open LinkedTraversal ByteMemory

def sizeTSize : Nat := 8

def align (size : UInt64) : UInt64 :=
  (size + 7) &&& ~~~7

section

variable (memory : Nat → UInt8)

def get (p : Nat) : UInt32 :=
  UInt32.ofNat (load memory 4 p)

def put (p : Nat) (val : UInt64) : Nat → UInt8 :=
  store memory 4 p val.toUInt32.toNat

def getSize (p : Nat) : UInt32 :=
  get memory p &&& ~~~7

def getAlloc (p : Nat) : UInt32 :=
  get memory p &&& 1

def getMark (p : Nat) : UInt32 :=
  get memory p &&& 2

def resetMark (p : Nat) : Nat → UInt8 :=
  put memory p (get memory p &&& ~~~2).toUInt64

def pack (size alloc : UInt64) : UInt64 :=
  size ||| alloc

def hdrp (bp : Nat) : Nat :=
  bp - sizeTSize

def ftrp (bp : Nat) : Nat :=
  bp + (getSize memory (hdrp bp)).toNat - 2 * sizeTSize

def nextBlkp (bp : Nat) : Nat :=
  bp + (getSize memory (bp - sizeTSize)).toNat

def prevBlkp (bp : Nat) : Nat :=
  bp - (getSize memory (bp - 2 * sizeTSize)).toNat

end

/-- The bytes and bounds of the heap; a null pointer is `none`. -/
structure Heap where
  memory : Nat → UInt8
  heapStart : Nat
  heapEnd : Nat
  currentBreak : Nat
  representable : heapEnd < 2 ^ 64

def putTags (memory : Nat → UInt8) (bp : Nat) (val : UInt64) : Nat → UInt8 :=
  let memory := put memory (hdrp bp) val
  put memory (ftrp memory bp) val

def coalesce (memory : Nat → UInt8) (bp : Nat) : (Nat → UInt8) × Nat :=
  let prevAlloc := getAlloc memory (ftrp memory (prevBlkp memory bp))
  let nextAlloc := getAlloc memory (hdrp (nextBlkp memory bp))
  let size := (getSize memory (hdrp bp)).toUInt64
  if prevAlloc ≠ 0 ∧ nextAlloc ≠ 0 then
    (memory, bp)
  else if prevAlloc ≠ 0 ∧ nextAlloc = 0 then
    let size := size + (getSize memory (hdrp (nextBlkp memory bp))).toUInt64
    (putTags memory bp (pack size 0), bp)
  else if prevAlloc = 0 ∧ nextAlloc ≠ 0 then
    let size := size + (getSize memory (hdrp (prevBlkp memory bp))).toUInt64
    let memory := put memory (ftrp memory bp) (pack size 0)
    let memory := put memory (hdrp (prevBlkp memory bp)) (pack size 0)
    (memory, prevBlkp memory bp)
  else
    let size := size + (getSize memory (hdrp (prevBlkp memory bp)) +
      getSize memory (ftrp memory (nextBlkp memory bp))).toUInt64
    let memory := put memory (hdrp (prevBlkp memory bp)) (pack size 0)
    let memory := put memory (ftrp memory (nextBlkp memory bp)) (pack size 0)
    (memory, prevBlkp memory bp)

def splitBlock (memory : Nat → UInt8) (bp : Nat) (asize : UInt64) : (Nat → UInt8) × Nat :=
  let csize := (getSize memory (hdrp bp)).toUInt64
  if 2 * sizeTSize ≤ (csize - asize).toNat then
    let memory := putTags memory bp (pack asize 1)
    let bp := nextBlkp memory bp
    (putTags memory bp (pack (csize - asize) 0), bp)
  else
    (putTags memory bp (pack csize 1), bp)

def blockAt (memory : Nat → UInt8) (bp : Nat) : Option Nat :=
  if 0 < getSize memory (hdrp bp) then some bp else none

def fits (memory : Nat → UInt8) (asize : UInt64) (bp : Nat) : Bool :=
  getAlloc memory (hdrp bp) = 0 ∧ asize ≤ (getSize memory (hdrp bp)).toUInt64

def findFit (heap : Heap) (asize : UInt64) : Option (Option Nat) :=
  traverse (fun bp => blockAt heap.memory (nextBlkp heap.memory bp))
    (fun (_ : Option Nat) bp =>
      if fits heap.memory asize bp then .done (some bp) else .yield none)
    heap.heapEnd (blockAt heap.memory heap.heapStart) none

def extensionSize (words : UInt64) : UInt64 :=
  if words % 2 ≠ 0 then (words + 1) * 8 else words * 8

def extendHeap (heap : Heap) (words : UInt64) : Option (Heap × Nat) :=
  let size := extensionSize words
  let newBreak := (heap.currentBreak + size.toNat) % 2 ^ 64
  if heap.heapEnd < newBreak then
    none
  else
    let coalesced :=
      coalesce (putTags heap.memory heap.currentBreak (pack size 0))
        heap.currentBreak
    some ({ heap with memory := coalesced.1, currentBreak := newBreak }, coalesced.2)

def asizeOf (size : UInt64) : UInt64 :=
  if size.toNat ≤ sizeTSize then 16 else align (size + 16)

def extendsizeOf (asize : UInt64) : UInt64 :=
  if 4096 < asize then asize else 4096

def placeAt (heap : Heap) (bp : Nat) (asize : UInt64) : Heap × Option Nat :=
  let split := splitBlock heap.memory bp asize
  ({ heap with memory := split.1 }, some (split.2 + sizeTSize))

def mMalloc (heap : Heap) (size : UInt64) : Option (Heap × Option Nat) :=
  if size = 0 then
    some (heap, none)
  else
    let asize := asizeOf size
    (findFit heap asize).map fun
      | some bp => placeAt heap bp asize
      | none =>
        match extendHeap heap (extendsizeOf asize / 8) with
        | none => (heap, none)
        | some (heap, bp) => placeAt heap bp asize

def mFree (heap : Heap) : Option Nat → Heap
  | none => heap
  | some ptr =>
    let bp := ptr - sizeTSize
    let size := (getSize heap.memory (hdrp bp)).toUInt64
    { heap with
      memory := (coalesce (putTags heap.memory bp (pack size 0)) bp).1 }

def sweepBlock (heap : Heap) (bp : Nat) : Heap :=
  if getAlloc heap.memory (hdrp bp) = 0 ∨ getMark heap.memory (hdrp bp) = 0 then
    mFree heap (some (bp + sizeTSize))
  else
    let memory := resetMark heap.memory (hdrp bp)
    { heap with memory := resetMark memory (ftrp memory bp) }

def sweepTest (state : Heap × Nat) : Bool :=
  0 < getSize state.1.memory (hdrp state.2)

def sweepBody (state : Heap × Nat) : Option ((Heap × Nat) × Unit) :=
  let heap := sweepBlock state.1 state.2
  some ((heap, nextBlkp heap.memory state.2), ())

/-- The loop of `sweep` ends with `final` when it goes on from `bp`. -/
def SweepsFrom (heap : Heap) (bp : Nat) (final : Heap) : Prop :=
  ∃ lastBp outs, WhileLoop.Ends sweepTest sweepBody (heap, bp) outs (final, lastBp)

def Sweeps (heap final : Heap) : Prop :=
  SweepsFrom heap heap.heapStart final

structure Payload where
  ptr : Nat
  size : Nat
deriving DecidableEq, Repr

structure Client where
  heap : Heap
  live : List Payload

inductive Call
  | malloc (size : UInt64)
  | free (ptr : Nat)
deriving DecidableEq, Repr

def liveAfter (live : List Payload) (size : UInt64) : Option Nat → List Payload
  | some ptr => ⟨ptr, size.toNat⟩ :: live
  | none => live

def step (client : Client) : Call → Option (Client × Option Nat)
  | .malloc size =>
    (mMalloc client.heap size).map fun result =>
      (⟨result.1, liveAfter client.live size result.2⟩, result.2)
  | .free ptr =>
    if ptr ∈ client.live.map Payload.ptr then
      some (⟨mFree client.heap (some ptr),
        client.live.filter fun payload => payload.ptr ≠ ptr⟩, none)
    else
      none

end BitsAndBytes.Allocator
