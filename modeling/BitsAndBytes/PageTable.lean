import BitsAndBytes.FlatMemory

/-! # The virtual memory of `pageTable.c` -/

namespace BitsAndBytes.PageTable

open Function

def pageSize : Nat := 4096

def physicalMemorySize : Nat := 100 * pageSize

def diskSize : Nat := 1000 * pageSize

def tlbSize : Nat := 16

def frameCount : Nat := physicalMemorySize / pageSize

instance : NeZero diskSize := ⟨by decide⟩

structure PageTableEntry where
  frameNumber : Nat
  present : Bool
  dirty : Bool
  accessed : Bool
deriving DecidableEq, Repr

structure TLBEntry where
  pageNumber : Nat
  frameNumber : Nat
deriving DecidableEq, Repr

structure Memory where
  physicalMemory : Nat → UInt8
  disk : Nat → UInt8
  pageTable : Nat → PageTableEntry
  tlb : Nat → TLBEntry
  tlbCount : Nat

def initMemory (vm : Memory) : Memory :=
  { vm with
    pageTable := fun _ => ⟨0, false, false, false⟩
    tlb := fun _ => ⟨0, 0⟩
    physicalMemory := fun _ => 0
    disk := fun _ => 0 }

def zeroedMemory : Memory where
  physicalMemory := fun _ => 0
  disk := fun _ => 0
  pageTable := fun _ => ⟨0, false, false, false⟩
  tlb := fun _ => ⟨0, 0⟩
  tlbCount := 0

def searchTlb (vm : Memory) (pageNumber : Nat) : Option Nat :=
  (List.range vm.tlbCount).findSome? fun i =>
    if (vm.tlb i).pageNumber = pageNumber then some (vm.tlb i).frameNumber else none

def updateTlb (vm : Memory) (pageNumber frameNumber : Nat) : Memory :=
  if vm.tlbCount < tlbSize then
    { vm with
      tlb := update vm.tlb vm.tlbCount ⟨pageNumber, frameNumber⟩
      tlbCount := vm.tlbCount + 1 }
  else
    { vm with
      tlb := update
        (fun i => if i < tlbSize - 1 then vm.tlb (i + 1) else vm.tlb i)
        (tlbSize - 1) ⟨pageNumber, frameNumber⟩ }

def freeFrame (vm : Memory) : Nat :=
  ((List.range frameCount).find? fun i =>
    vm.physicalMemory (i * pageSize) == 0).getD 0

def loadPage (vm : Memory) (pageNumber frame : Nat) : Memory :=
  { vm with
    physicalMemory := fun address =>
      if frame * pageSize ≤ address ∧ address < frame * pageSize + pageSize then
        vm.disk (pageNumber * pageSize + (address - frame * pageSize))
      else
        vm.physicalMemory address
    pageTable := update vm.pageTable pageNumber
      { vm.pageTable pageNumber with
        frameNumber := frame
        present := true
        accessed := true } }

def translateAddress (vm : Memory) (virtualAddress : Nat) : Memory × Nat :=
  let pageNumber := virtualAddress / pageSize
  let offset := virtualAddress % pageSize
  match searchTlb vm pageNumber with
  | some frameNumber => (vm, frameNumber * pageSize + offset)
  | none =>
    let pte := vm.pageTable pageNumber
    if pte.present then
      (updateTlb vm pageNumber pte.frameNumber, pte.frameNumber * pageSize + offset)
    else
      (updateTlb (loadPage vm pageNumber (freeFrame vm)) pageNumber (freeFrame vm),
        freeFrame vm * pageSize + offset)

def writeMemory (vm : Memory) (virtualAddress : Nat) (value : UInt8) : Memory :=
  let translated := translateAddress vm virtualAddress
  let pageNumber := virtualAddress / pageSize
  { translated.1 with
    physicalMemory :=
      update translated.1.physicalMemory translated.2 value
    pageTable := update translated.1.pageTable pageNumber
      { translated.1.pageTable pageNumber with dirty := true } }

def readMemory (vm : Memory) (virtualAddress : Nat) : Memory × UInt8 :=
  let translated := translateAddress vm virtualAddress
  (translated.1, translated.1.physicalMemory translated.2)

inductive Operation
  | write (address : Fin diskSize) (value : UInt8)
  | read (address : Fin diskSize)
deriving DecidableEq, Repr

def Operation.address : Operation → Nat
  | .write address _ => address
  | .read address => address

def step (vm : Memory) : Operation → Option (Memory × Option UInt8)
  | .write address value => some (writeMemory vm address value, none)
  | .read address =>
    some ((readMemory vm address).1, some (readMemory vm address).2)

def reads : Operation → Option Nat
  | .read address => some address
  | .write _ _ => none

def written : Operation → Option (Nat × UInt8)
  | .write address value => some (address, value)
  | .read _ => none

end BitsAndBytes.PageTable
