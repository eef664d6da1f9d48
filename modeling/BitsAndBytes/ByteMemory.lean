import Mathlib.Algebra.Ring.Nat
import Mathlib.Tactic.Common

/-! # Words in a memory of bytes -/

namespace BitsAndBytes.ByteMemory

open Function

def load (memory : Nat → UInt8) : Nat → Nat → Nat
  | 0, _ => 0
  | width + 1, address =>
    (memory address).toNat + 256 * load memory width (address + 1)

def store (memory : Nat → UInt8) : Nat → Nat → Nat → Nat → UInt8
  | 0, _, _ => memory
  | width + 1, address, value =>
    update (store memory width (address + 1) (value / 256)) address
      (UInt8.ofNat value)

theorem and_mask {address : Nat} (high low : Nat) (small : address < 2 ^ (high + low)) :
    address &&& (2 ^ high - 1) * 2 ^ low = address / 2 ^ low * 2 ^ low := by
  apply Nat.eq_of_testBit_eq
  intro index
  rw [Nat.testBit_and, Nat.testBit_mul_two_pow, Nat.testBit_mul_two_pow,
    Nat.testBit_div_two_pow, Nat.testBit_two_pow_sub_one]
  by_cases kept : low ≤ index
  · have shifted : index - low + low = index := by omega
    by_cases inside : index - low < high
    · simp [kept, shifted, inside]
    · have bound : address < 2 ^ index :=
        Nat.lt_of_lt_of_le small (Nat.pow_le_pow_right (by decide) (by omega))
      simp [Nat.testBit_lt_two_pow bound, shifted]
  · simp [kept]

variable {memory : Nat → UInt8} {width address : Nat}

theorem store_of_outside {value other : Nat} (outside : other < address ∨ address + width ≤ other) :
    store memory width address value other = memory other := by
  induction width generalizing address value with
  | zero => rfl
  | succ width ih =>
    have different : other ≠ address := by omega
    rw [store, update_of_ne different]
    exact ih (by omega)

theorem load_congr {other : Nat → UInt8}
    (same : ∀ index, address ≤ index → index < address + width →
      memory index = other index) : load memory width address = load other width address := by
  induction width generalizing address with
  | zero => rfl
  | succ width ih =>
    rw [load, load, same address (Nat.le_refl _) (by omega)]
    rw [ih fun index lower upper => same index (by omega) (by omega)]

theorem load_store_of_disjoint {value otherWidth other : Nat}
    (disjoint : other + otherWidth ≤ address ∨ address + width ≤ other) :
    load (store memory width address value) otherWidth other = load memory otherWidth other := by
  apply load_congr
  intro index lower upper
  exact store_of_outside (by omega)

theorem load_store_self (value : Nat) :
    load (store memory width address value) width address = value % 256 ^ width := by
  induction width generalizing address value with
  | zero => simp [load, Nat.mod_one]
  | succ width ih =>
    have rest : load (store memory (width + 1) address value) width
        (address + 1) = value / 256 % 256 ^ width := by
      rw [← ih]
      apply load_congr
      intro index lower _
      have different : index ≠ address := by omega
      rw [store, update_of_ne different]
    have first : (store memory (width + 1) address value address).toNat = value % 256 := by
      rw [store, update_self]
      exact UInt8.toNat_ofNat'
    rw [load, first, rest, Nat.pow_succ', Nat.mod_mul]

theorem load_lt : load memory width address < 256 ^ width := by
  induction width generalizing address with
  | zero => simp [load]
  | succ width ih =>
    have byte := (memory address).toNat_lt
    have rest := @ih (address + 1)
    rw [load, Nat.pow_succ']
    omega

theorem store_load_self : store memory width address (load memory width address) = memory := by
  induction width generalizing address with
  | zero => rfl
  | succ width ih =>
    have byte := (memory address).toNat_lt
    have high : load memory (width + 1) address / 256 = load memory width (address + 1) := by
      rw [load]
      omega
    have low : UInt8.ofNat (load memory (width + 1) address) = memory address := by
      apply UInt8.toNat_inj.mp
      rw [UInt8.toNat_ofNat', load]
      omega
    rw [store, high, ih, low, update_eq_self]

theorem add_mul_or {low bits : Nat} (high : Nat) (lowLt : low < 256) (bitsLt : bits < 256) :
    (low + 256 * high) ||| bits = (low ||| bits) + 256 * high := by
  have joinedLt : low ||| bits < 2 ^ 8 := Nat.or_lt_two_pow lowLt bitsLt
  have shifted : high <<< 8 = 256 * high := by rw [Nat.shiftLeft_eq, Nat.mul_comm]
  rw [Nat.add_comm low, Nat.add_comm (low ||| bits), ← shifted,
    Nat.shiftLeft_add_eq_or_of_lt lowLt, Nat.shiftLeft_add_eq_or_of_lt joinedLt, Nat.or_assoc]

theorem load_eq_or {other : Nat → UInt8} {bits : UInt8}
    (lowest : other address = memory address ||| bits)
    (same : ∀ index, address < index → index < address + (width + 1) → other index = memory index) :
    load other (width + 1) address = load memory (width + 1) address ||| bits.toNat := by
  have rest : load other width (address + 1) = load memory width (address + 1) :=
    load_congr fun index lower upper => same index (by omega) (by omega)
  rw [load, load, rest, lowest, UInt8.toNat_or,
    add_mul_or _ (memory address).toNat_lt bits.toNat_lt]

theorem store_load_or (bits : UInt8) :
    store memory (width + 1) address (load memory (width + 1) address ||| bits.toNat) =
      update memory address (memory address ||| bits) := by
  have bound := Nat.or_lt_two_pow (n := 8) (memory address).toNat_lt bits.toNat_lt
  have split : load memory (width + 1) address ||| bits.toNat =
      ((memory address).toNat ||| bits.toNat) + 256 * load memory width (address + 1) := by
    rw [load, add_mul_or _ (memory address).toNat_lt bits.toNat_lt]
  have high : (load memory (width + 1) address ||| bits.toNat) / 256 =
      load memory width (address + 1) := by
    omega
  have low : UInt8.ofNat (load memory (width + 1) address ||| bits.toNat) =
      memory address ||| bits := by
    apply UInt8.toNat_inj.mp
    rw [UInt8.toNat_ofNat', UInt8.toNat_or, split]
    omega
  rw [store, high, store_load_self, low]

end BitsAndBytes.ByteMemory
