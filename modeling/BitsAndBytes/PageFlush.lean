import BitsAndBytes.OperationRuns
import BitsAndBytes.SignedInt
import Mathlib.Algebra.Ring.Nat

/-! # The MMU of `pageFlush.c` -/

namespace BitsAndBytes.PageFlush

open SignedInt Function List

def pageSize : Nat := 4096

def ptePresent : Nat := 0x1

def pteWritable : Nat := 0x2

def pteUser : Nat := 0x4

def maxProcesses : Nat := 256

def tlbSize : Nat := 64

def failed : Nat := 2 ^ 64 - 1

instance : NeZero maxProcesses := ⟨by decide⟩

structure TlbEntry where
  vpn : Nat
  pfn : Nat
  asid : Nat
  valid : Bool
deriving DecidableEq, Repr

structure Process where
  pageTable : Nat → Nat
  asid : Nat

structure System where
  pinCount : Nat → Int
  memorySize : UInt64
  processes : Nat → Process
  tlb : Nat → TlbEntry
  currentAsid : Nat
  nextAsid : Nat

def System.frames (sys : System) : Nat :=
  sys.memorySize.toNat / pageSize

def initSystem (sys : System) (memorySize : UInt64) : System :=
  { sys with
    memorySize := memorySize
    pinCount := fun _ => 0
    nextAsid := 1
    tlb := fun _ => ⟨0, 0, 0, false⟩ }

def allocatePage (sys : System) : System × Nat :=
  match (range sys.frames).find? fun i => sys.pinCount i == 0 with
  | some i => ({ sys with pinCount := update sys.pinCount i 1 }, i)
  | none => (sys, failed)

def pinPage (sys : System) (pfn : Nat) : Option System :=
  if pfn < sys.frames ∧ sys.pinCount pfn < intMax then
    some { sys with pinCount := update sys.pinCount pfn (sys.pinCount pfn + 1) }
  else
    none

def unpinPage (sys : System) (pfn : Nat) : Option System :=
  if pfn < sys.frames then
    if sys.pinCount pfn > 0 then
      some { sys with
        pinCount := update sys.pinCount pfn (sys.pinCount pfn - 1) }
    else
      some sys
  else
    none

def flushTlbEntry (sys : System) (vpn asid : Nat) : System :=
  match (range tlbSize).find? fun i =>
      (sys.tlb i).vpn == vpn && (sys.tlb i).asid == asid with
  | some i =>
    { sys with tlb := update sys.tlb i { sys.tlb i with valid := false } }
  | none => sys

def flushTlb (sys : System) : System :=
  { sys with tlb := fun i => { sys.tlb i with valid := false } }

def searchTlb (sys : System) (vpn asid : Nat) : Option Nat :=
  (range tlbSize).findSome? fun i =>
    if (sys.tlb i).valid && (sys.tlb i).vpn == vpn && (sys.tlb i).asid == asid then
      some (sys.tlb i).pfn
    else
      none

def fillTlb (sys : System) (vpn pfn asid : Nat) : System :=
  match (range tlbSize).find? fun i => !(sys.tlb i).valid with
  | some i => { sys with tlb := update sys.tlb i ⟨vpn, pfn, asid, true⟩ }
  | none => sys

def setEntry (sys : System) (asid vpn pte : Nat) : System :=
  { sys with
    processes := update sys.processes asid
      { sys.processes asid with
        pageTable := update (sys.processes asid).pageTable vpn pte } }

def translateAddress (sys : System) (vaddr asid : Nat) : System × Nat :=
  let vpn := vaddr / pageSize
  let offset := vaddr % pageSize
  match searchTlb sys vpn asid with
  | some pfn => (sys, pfn * pageSize ||| offset)
  | none =>
    let pte := (sys.processes asid).pageTable vpn
    if pte &&& ptePresent = 0 then
      let allocated := allocatePage sys
      if allocated.2 = failed then
        (allocated.1, failed)
      else
        let newPte := allocated.2 <<< 12 ||| ptePresent ||| pteWritable ||| pteUser
        (fillTlb (setEntry allocated.1 asid vpn newPte) vpn (newPte >>> 12) asid,
          (newPte >>> 12) * pageSize ||| offset)
    else
      (fillTlb sys vpn (pte >>> 12) asid, (pte >>> 12) * pageSize ||| offset)

def advanceAsid (asid : Nat) : Nat :=
  if (asid + 1) % 256 = 0 then 1 else (asid + 1) % 256

def switchProcess (sys : System) (newProcessId : Nat) : System :=
  let assigned :=
    if (sys.processes newProcessId).asid = 0 then
      let named :=
        { sys with
          processes := update sys.processes newProcessId
            { sys.processes newProcessId with asid := sys.nextAsid }
          nextAsid := advanceAsid sys.nextAsid }
      if (sys.nextAsid + 1) % 256 = 0 then flushTlb named else named
    else
      sys
  { assigned with currentAsid := (assigned.processes newProcessId).asid }

structure Access where
  pid : Fin maxProcesses
  vaddr : Nat
deriving DecidableEq, Repr

def step (sys : System) (access : Access) : Option (System × Nat) :=
  some (translateAddress (switchProcess sys access.pid) access.vaddr
    (switchProcess sys access.pid).currentAsid)

def System.withZeroedProcesses (sys : System) : System :=
  { sys with processes := fun _ => ⟨fun _ => 0, 0⟩ }

def zeroedSystem : System where
  pinCount := fun _ => 0
  memorySize := 0
  processes := fun _ => ⟨fun _ => 0, 0⟩
  tlb := fun _ => ⟨0, 0, 0, false⟩
  currentAsid := 0
  nextAsid := 0

def frameOf (address : Nat) : Option Nat :=
  if address = failed then none else some (address / pageSize)

end BitsAndBytes.PageFlush
