import BitsAndBytes.CString
import Mathlib.Algebra.BigOperators.Group.List.Basic
import Mathlib.Algebra.Ring.Int.Defs

/-! # The upper layers of `network_stack.c` -/

namespace BitsAndBytes.NetworkStack

open CheckedArray CString List Option

def bufferSize : Nat := 1024

structure ApplicationLayer where
  buffer : Nat → UInt8
  bufLen : Nat

structure TransportLayer where
  srcPort : UInt16
  dstPort : UInt16
  seqNum : UInt32
  ackNum : UInt32
  checksum : UInt16
deriving DecidableEq, Repr

def processApplicationLayer (app : ApplicationLayer) (data : CText) : ApplicationLayer where
  buffer := strncpy app.buffer 0 data.bytes (bufferSize - 1)
  bufLen := data.bytes.length

def addByte (checksum : UInt16) (byte : UInt8) : UInt16 :=
  UInt16.ofInt (checksum.toNat + byte.toInt8.toInt)

def sumBytes (app : ApplicationLayer) (indices : List Nat) (checksum : UInt16) : Option UInt16 :=
  indices.foldlM (fun checksum index => do
    let byte ← CheckedArray.read bufferSize app.buffer index
    some (addByte checksum byte)) checksum

def processTransportLayer (app : ApplicationLayer) : Option TransportLayer := do
  let checksum ← sumBytes app (range app.bufLen) 0
  some { srcPort := 12345, dstPort := 80, seqNum := 1000, ackNum := 0, checksum }

def zeroed : ApplicationLayer := ⟨fun _ => 0, 0⟩

def byteSum (bytes : List UInt8) : Int := (bytes.map fun byte => byte.toInt8.toInt).sum

variable {app : ApplicationLayer} {indices : List Nat} {checksum result : UInt16}

theorem addByte_ofInt (sum : Int) (byte : UInt8) :
    addByte (UInt16.ofInt sum) byte = UInt16.ofInt (sum + byte.toInt8.toInt) := by
  have low : ((UInt16.ofInt sum).toNat : Int) = sum % 2 ^ 16 := by
    rw [UInt16.ofInt, UInt16.toNat_ofNat']
    omega
  rw [addByte, low, UInt16.ofInt, UInt16.ofInt, Int.emod_add_emod]

theorem foldl_addByte (bytes : List UInt8) (sum : Int) :
    bytes.foldl addByte (UInt16.ofInt sum) = UInt16.ofInt (sum + byteSum bytes) := by
  induction bytes generalizing sum with
  | nil => simp [byteSum]
  | cons byte bytes ih =>
    rw [foldl_cons, addByte_ofInt, ih]
    simp [byteSum, Int.add_assoc]

theorem sumBytes_of_inside (inside : ∀ index ∈ indices, index < bufferSize) (checksum : UInt16) :
    sumBytes app indices checksum = some ((indices.map app.buffer).foldl addByte checksum) := by
  induction indices generalizing checksum with
  | nil => rfl
  | cons index indices ih =>
    rw [forall_mem_cons] at inside
    simp only [sumBytes, foldlM_cons, CheckedArray.read, if_pos inside.1]
    exact ih inside.2 _

theorem inside_of_sumBytes (summed : sumBytes app indices checksum = some result) :
    ∀ index ∈ indices, index < bufferSize := by
  induction indices generalizing checksum with
  | nil => nofun
  | cons index indices ih =>
    obtain ⟨next, readEq, rest⟩ := bind_eq_some_iff.mp summed
    obtain ⟨byte, byteEq, -⟩ := bind_eq_some_iff.mp readEq
    rw [forall_mem_cons]
    exact ⟨(ite_none_right_eq_some.mp byteEq).1, ih rest⟩

variable (data : CText)

theorem map_range_getD {bytes : List UInt8} {size : Nat} (fits : bytes.length ≤ size) :
    (range size).map (bytes.getD · 0) = bytes ++ replicate (size - bytes.length) 0 := by
  apply ext_getElem
  · simp only [length_map, length_range, length_append, length_replicate]
    omega
  · intro index _ _
    by_cases inside : index < bytes.length
    · simp [inside]
    · simp [getElem_append_right (Nat.le_of_not_lt inside), inside]

theorem buffer_eq (index : Nat) : (processApplicationLayer zeroed data).buffer index =
    (data.bytes.take (bufferSize - 1)).getD index 0 := by
  simp only [processApplicationLayer, strncpy, zeroed, getD_eq_getElem?_getD, getElem?_take]
  split <;> split <;> first | rfl | omega

theorem byteSum_append_replicate (bytes : List UInt8) (spare : Nat) :
    byteSum (bytes ++ replicate spare 0) = byteSum bytes := by
  simp [byteSum]

theorem text_buffer : checkedText 0 bufferSize (processApplicationLayer zeroed data).buffer =
    some (data.bytes.take (bufferSize - 1)) := by
  have holds : Holds (processApplicationLayer zeroed data).buffer
      (data.bytes.take (bufferSize - 1) ++ [0]) := by
    intro index _
    rw [buffer_eq, getElem_append]
    split
    · rename_i inside
      exact (getElem_eq_getD 0).symm
    · rename_i outside
      rw [getElem_singleton, getD_eq_default _ _ (Nat.le_of_not_lt outside)]
  have short : (data.bytes.take (bufferSize - 1)).length < bufferSize := by
    rw [length_take, bufferSize]
    omega
  rw [checkedText_of_holds holds short,
    takeWhile_eq_self_iff_notMem.mpr fun member => data.noNul (mem_of_mem_take member)]

theorem sumBytes_buffer (fits : data.bytes.length ≤ bufferSize) :
    sumBytes (processApplicationLayer zeroed data) (range data.bytes.length) 0 =
      some (UInt16.ofInt (byteSum (data.bytes.take (bufferSize - 1)))) := by
  rw [sumBytes_of_inside fun index member => Nat.lt_of_lt_of_le (mem_range.mp member) fits,
    funext (buffer_eq data), map_range_getD (length_take_le' _ _),
    show (0 : UInt16) = UInt16.ofInt 0 from rfl,
    foldl_addByte, byteSum_append_replicate, Int.zero_add]

theorem processTransportLayer_eq_none (long : bufferSize < data.bytes.length) :
    processTransportLayer (processApplicationLayer zeroed data) = none := by
  rw [eq_none_iff_forall_ne_some]
  intro transport processed
  obtain ⟨checksum, summed, -⟩ := bind_eq_some_iff.mp processed
  exact Nat.lt_irrefl _ (inside_of_sumBytes summed bufferSize (mem_range.mpr long))

/-- The checksum is that of the stored message exactly for data of at most 1024 bytes. -/
theorem checksum_iff : (∃ transport message,
      processTransportLayer (processApplicationLayer zeroed data) = some transport ∧
      checkedText 0 bufferSize (processApplicationLayer zeroed data).buffer = some message ∧
      transport.checksum = UInt16.ofInt (byteSum message)) ↔ data.bytes.length ≤ bufferSize := by
  constructor
  · rintro ⟨transport, -, processed, -⟩
    by_contra long
    rw [processTransportLayer_eq_none data (Nat.lt_of_not_le long)] at processed
    cases processed
  · intro fits
    refine ⟨{ srcPort := 12345, dstPort := 80, seqNum := 1000, ackNum := 0, checksum := _ }, _, ?_,
      text_buffer data, rfl⟩
    exact bind_eq_some_iff.mpr ⟨_, sumBytes_buffer data fits, rfl⟩

theorem long_data_is_read_past_the_buffer : ∃ data : CText, data.bytes = replicate 1025 65 ∧
      processTransportLayer (processApplicationLayer zeroed data) = none := by
  have noNul : (0 : UInt8) ∉ replicate 1025 65 := fun member =>
    absurd (eq_of_mem_replicate member) (by decide)
  refine ⟨⟨replicate 1025 65, noNul⟩, rfl, processTransportLayer_eq_none _ ?_⟩
  rw [length_replicate]
  decide

end BitsAndBytes.NetworkStack
