import BitsAndBytes.FlatMemory

/-! # The cache of `memoryController.c` -/

namespace BitsAndBytes.MemoryController

open Function

def memorySize : Nat := 1024 * 1024

instance : NeZero memorySize := ⟨by decide⟩

def cacheSize : Nat := 64 * 1024

def cacheLineSize : Nat := 64

def numCacheLines : Nat := cacheSize / cacheLineSize

def maxCacheSets : Nat := 4

inductive AccessMode
  | read
  | write
deriving DecidableEq, Repr

inductive ReplacementPolicy
  | lru
  | random
deriving DecidableEq, Repr

structure CacheLine where
  data : Nat → UInt8
  tag : Nat
  dirty : Bool
  lastUsed : Int

structure Controller where
  mainMemory : Nat → UInt8
  cache : Nat → Nat → Option CacheLine
  replacementPolicy : ReplacementPolicy
  rngSeed : Nat

structure Environment where
  clock : Int
  rand : Nat
  lastUsed : Int

def memoryControllerNew (mainMemory : Nat → UInt8) (time : Nat) : Controller where
  mainMemory := mainMemory
  cache := fun _ _ => none
  replacementPolicy := .lru
  rngSeed := time

def Controller.withLine (mc : Controller) (cacheLine way : Nat)
    (line : Option CacheLine) : Controller :=
  { mc with
    cache := update mc.cache cacheLine
      (update (mc.cache cacheLine) way line) }

def findLine (mc : Controller) (cacheLine tag : Nat) : Option (Nat × CacheLine) :=
  (List.range maxCacheSets).findSome? fun way =>
    match mc.cache cacheLine way with
    | some line => if line.tag = tag then some (way, line) else none
    | none => none

def emptySlot (mc : Controller) (cacheLine : Nat) : Option Nat :=
  (List.range maxCacheSets).find? fun way => (mc.cache cacheLine way).isNone

def lastUsedIn (mc : Controller) (cacheLine way : Nat) : Int :=
  match mc.cache cacheLine way with
  | some line => line.lastUsed
  | none => 0

def victimWay (mc : Controller) (cacheLine : Nat) (env : Environment) : Nat :=
  match mc.replacementPolicy with
  | .lru =>
    [1, 2, 3].foldl (fun victim way =>
      if lastUsedIn mc cacheLine way < lastUsedIn mc cacheLine victim then way else victim) 0
  | .random => env.rand % maxCacheSets

def Controller.withBytes (mc : Controller) (base : Nat) (data : Nat → UInt8) :
    Controller :=
  { mc with
    mainMemory := fun address =>
      if base ≤ address ∧ address < base + cacheLineSize then data (address - base)
      else mc.mainMemory address }

def writeBack (mc : Controller) (base : Nat) (data : Nat → UInt8) : Option Controller :=
  if base + cacheLineSize ≤ memorySize then some (mc.withBytes base data) else none

def reseed (mc : Controller) : Controller :=
  match mc.replacementPolicy with
  | .lru => mc
  | .random => { mc with rngSeed := (mc.rngSeed + 1) % 2 ^ 64 }

def evictLine (mc : Controller) (cacheLine : Nat) (env : Environment) : Option (Nat × Controller) :=
  let victim := victimWay mc cacheLine env
  match mc.cache cacheLine victim with
  | some line =>
    if line.dirty then
      (writeBack (reseed mc) ((line.tag * numCacheLines + cacheLine) *
        cacheLineSize) line.data).map fun written => (victim, written)
    else
      some (victim, reseed mc)
  | none => none

def accessLine (line : CacheLine) (offset : Nat) (mode : AccessMode)
    (data : UInt8) : CacheLine × UInt8 :=
  match mode with
  | .read => (line, line.data offset)
  | .write =>
    ({ line with data := update line.data offset data, dirty := true }, data)

def newEntry (mc : Controller) (address : Nat) (env : Environment) : CacheLine where
  data := fun index => mc.mainMemory (address - address % cacheLineSize + index)
  tag := address / cacheLineSize
  dirty := false
  lastUsed := env.lastUsed

def memoryControllerAccess (mc : Controller) (address : Nat) (mode : AccessMode)
    (data : UInt8) (env : Environment) : Option (Controller × UInt8) :=
  let cacheLine := address / cacheLineSize % numCacheLines
  let tag := address / cacheLineSize
  let offset := address % cacheLineSize
  match findLine mc cacheLine tag with
  | some (way, line) =>
    let accessed := accessLine { line with lastUsed := env.clock } offset mode data
    some (mc.withLine cacheLine way (some accessed.1), accessed.2)
  | none =>
    let accessed := accessLine (newEntry mc address env) offset mode data
    match emptySlot mc cacheLine with
    | some way => some (mc.withLine cacheLine way (some accessed.1), accessed.2)
    | none =>
      (evictLine mc cacheLine env).map fun freed =>
        (freed.2.withLine cacheLine freed.1 (some accessed.1), accessed.2)

def memoryControllerSetReplacementPolicy (mc : Controller)
    (policy : ReplacementPolicy) : Controller :=
  { mc with replacementPolicy := policy }

inductive Operation
  | access (address : Fin memorySize) (mode : AccessMode) (data : UInt8)
      (env : Environment)
  | setReplacementPolicy (policy : ReplacementPolicy)

def step (mc : Controller) : Operation → Option (Controller × Option UInt8)
  | .access address mode data env =>
    (memoryControllerAccess mc address mode data env).map fun result =>
      (result.1, if mode = .read then some result.2 else none)
  | .setReplacementPolicy policy =>
    some (memoryControllerSetReplacementPolicy mc policy, none)

def reads : Operation → Option Nat
  | .access address .read _ _ => some address
  | _ => none

def written : Operation → Option (Nat × UInt8)
  | .access address .write data _ => some (address, data)
  | _ => none

end BitsAndBytes.MemoryController
