import Mathlib.Algebra.Ring.Nat
import Mathlib.Logic.Function.Basic

/-! # Files with an offset -/

namespace BitsAndBytes.PosixFile

@[ext]
structure File where
  bytes : Nat → UInt8
  length : Nat
  offset : Nat

variable {size : Nat}
variable {file : File}

def lseek (file : File) (offset : Int) : File :=
  if offset < 0 then file else { file with offset := offset.toNat }

def readInto (file : File) (buffer : Fin size → UInt8) : Fin size → UInt8 :=
  fun i =>
    if file.offset + i < file.length then file.bytes (file.offset + i)
    else buffer i

def afterRead (file : File) (size : Nat) : File :=
  { file with offset := file.offset + min size (file.length - file.offset) }

def write (file : File) (buffer : Fin size → UInt8) : File where
  bytes := fun position =>
    if h : file.offset ≤ position ∧ position < file.offset + size then
      buffer ⟨position - file.offset, by omega⟩
    else if position < file.length then file.bytes position
    else 0
  length := max file.length (file.offset + size)
  offset := file.offset + size

def Holds (file : File) (block : Nat) (contents : Fin size → UInt8) : Prop :=
  (block + 1) * size ≤ file.length ∧ ∀ i : Fin size, file.bytes (block * size + i) = contents i

@[simp]
theorem lseek_bytes (file : File) (offset : Int) : (lseek file offset).bytes = file.bytes := by
  unfold lseek
  split <;> rfl

@[simp]
theorem lseek_length (file : File) (offset : Int) : (lseek file offset).length = file.length := by
  unfold lseek
  split <;> rfl

theorem lseek_natCast (file : File) (offset : Nat) :
    lseek file offset = { file with offset := offset } := by
  rfl

variable {block other : Nat} {contents : Fin size → UInt8}

@[simp]
theorem holds_lseek {offset : Int} :
    Holds (lseek file offset) block contents ↔ Holds file block contents := by
  simp [Holds]

@[simp]
theorem holds_afterRead {count : Nat} :
    Holds (afterRead file count) block contents ↔ Holds file block contents := Iff.rfl

theorem block_eq_of_position_eq {i j : Fin size} (same : block * size + i = other * size + j) :
    block = other := by
  have positive : 0 < size := i.pos
  have blockEq : (block * size + i) / size = block := by
    rw [mul_comm, Nat.mul_add_div positive, Nat.div_eq_of_lt i.isLt, add_zero]
  have otherEq : (other * size + j) / size = other := by
    rw [mul_comm, Nat.mul_add_div positive, Nat.div_eq_of_lt j.isLt, add_zero]
  rw [← blockEq, ← otherEq, same]

theorem position_lt_of_block_le (covered : (block + 1) * size ≤ file.length) (i : Fin size) :
    block * size + i < file.length := by
  rw [Nat.succ_mul] at covered
  omega

theorem Holds.readInto_lseek (holds : Holds file block contents) (buffer : Fin size → UInt8) :
    readInto (lseek file ((block * size : Nat) : Int)) buffer = contents := by
  funext i
  have within := position_lt_of_block_le holds.1 i
  rw [lseek_natCast]
  simp only [readInto, within, if_true]
  exact holds.2 i

theorem holds_write (file : File) (block : Nat) (contents : Fin size → UInt8) :
    Holds (write (lseek file ((block * size : Nat) : Int)) contents) block
      contents := by
  rw [lseek_natCast]
  refine ⟨?_, ?_⟩
  · simp only [write]
    rw [Nat.succ_mul]
    exact Nat.le_max_right ..
  · intro i
    have here : block * size ≤ block * size + i ∧ block * size + i < block * size + size := by
      omega
    simp only [write, here, and_self, dif_pos]
    congr 1
    apply Fin.ext
    exact Nat.add_sub_cancel_left ..

theorem write_bytes_of_ne (different : other ≠ block) (contents : Fin size → UInt8) (i : Fin size) :
    (write (lseek file ((block * size : Nat) : Int)) contents).bytes
        (other * size + i) =
      if other * size + i < file.length then file.bytes (other * size + i)
      else 0 := by
  rw [lseek_natCast]
  simp only [write]
  rw [dif_neg]
  rintro ⟨lower, upper⟩
  have same : other * size + i =
      block * size + (⟨other * size + i - block * size, by omega⟩ : Fin size) := by
    simp only
    omega
  exact different (block_eq_of_position_eq same)

theorem Holds.write_of_ne (holds : Holds file other contents) (different : other ≠ block)
    (written : Fin size → UInt8) :
    Holds (write (lseek file ((block * size : Nat) : Int)) written) other
      contents := by
  refine ⟨?_, ?_⟩
  · simp only [write, lseek_length]
    exact Nat.le_trans holds.1 (Nat.le_max_left ..)
  · intro i
    rw [write_bytes_of_ne different, if_pos (position_lt_of_block_le holds.1 i)]
    exact holds.2 i

structure AgreeOn (size block : Nat) (file other : File) : Prop where
  length_eq : file.length = other.length
  bytes_eq : ∀ i : Fin size, block * size + i < file.length →
    file.bytes (block * size + i) = other.bytes (block * size + i)

namespace AgreeOn

variable {block : Nat} {other : File}

section

variable (agree : AgreeOn size block file other)
include agree

theorem lseek_afterRead (offset : Int) (count : Nat) :
    AgreeOn size block (afterRead (lseek file offset) count)
      (afterRead (lseek other offset) count) := by
  constructor
  · simpa [afterRead] using agree.length_eq
  · simpa [afterRead] using agree.bytes_eq

theorem write (target : Nat) {otherContents : Fin size → UInt8}
    (same : target = block → contents = otherContents) :
    AgreeOn size block
      (PosixFile.write (lseek file ((target * size : Nat) : Int)) contents)
      (PosixFile.write (lseek other ((target * size : Nat) : Int)) otherContents) := by
  constructor
  · rw [lseek_natCast, lseek_natCast]
    simp only [PosixFile.write, agree.length_eq]
  · intro i _
    by_cases here : target = block
    · rw [← same here, here, (holds_write file block contents).2 i,
        (holds_write other block contents).2 i]
    · rw [write_bytes_of_ne (Ne.symm here), write_bytes_of_ne (Ne.symm here), ← agree.length_eq]
      by_cases within : block * size + i < file.length
      · rw [if_pos within, if_pos within, agree.bytes_eq i within]
      · rw [if_neg within, if_neg within]

theorem readInto_eq {buffer otherBuffer : Fin size → UInt8}
    (same : (block + 1) * size ≤ file.length ∨ buffer = otherBuffer) :
    readInto (lseek file ((block * size : Nat) : Int)) buffer =
      readInto (lseek other ((block * size : Nat) : Int)) otherBuffer := by
  funext i
  rw [lseek_natCast, lseek_natCast]
  simp only [readInto, ← agree.length_eq]
  by_cases within : block * size + i < file.length
  · rw [if_pos within, if_pos within, agree.bytes_eq i within]
  · rw [if_neg within, if_neg within]
    rcases same with covered | equal
    · exact absurd (position_lt_of_block_le covered i) within
    · rw [equal]

end

end AgreeOn

end BitsAndBytes.PosixFile
