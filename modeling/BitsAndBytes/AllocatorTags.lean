import BitsAndBytes.Allocator
import BitsAndBytes.BoundaryTags
import Mathlib.Data.Nat.Bitwise

/-! # Tags of the tagged heap -/

namespace BitsAndBytes.Allocator

open BoundaryTags BlockTiling ByteMemory

variable {size val : UInt64} {memory : Nat → UInt8} {p bp : Nat}

def tagSize (tag : UInt32) : Nat :=
  (tag &&& ~~~7).toNat

def IsFree (tag : UInt32) : Prop :=
  tag &&& 1 = 0

instance : DecidablePred IsFree :=
  fun tag => inferInstanceAs (Decidable (tag &&& 1 = 0))

def tagOf (size alloc : UInt64) : UInt32 :=
  (pack size alloc).toUInt32

variable (tag : UInt32)

theorem tagSize_eq : tagSize tag = tag.toNat / 8 * 8 := by
  exact and_mask 29 3 tag.toNat_lt

theorem tagSize_lt : tagSize tag < 2 ^ 32 := (tag &&& ~~~7).toNat_lt

theorem tagSize_mod_eight : tagSize tag % 8 = 0 := by
  rw [tagSize_eq, Nat.mul_mod_left]

theorem align_toNat (noWrap : size.toNat + 7 < 2 ^ 64) :
    (align size).toNat = (size.toNat + 7) / 8 * 8 := by
  have sum : (size + 7).toNat = size.toNat + 7 := by exact Nat.mod_eq_of_lt noWrap
  rw [align, UInt64.toNat_and, ← sum]
  exact and_mask 61 3 (size + 7).toNat_lt

variable {alloc : UInt64}

theorem tagOf_toNat (aligned : size.toNat % 8 = 0) (small : size.toNat < 2 ^ 32)
    (bit : alloc.toNat ≤ 1) : (tagOf size alloc).toNat = size.toNat + alloc.toNat := by
  have shifted : size.toNat = (size.toNat / 8) <<< 3 := by omega
  have sum : (pack size alloc).toNat = size.toNat + alloc.toNat := by
    rw [pack, UInt64.toNat_or, shifted, ← Nat.shiftLeft_add_eq_or_of_lt (by omega)]
  rw [tagOf, UInt64.toNat_toUInt32, sum]
  exact Nat.mod_eq_of_lt (by omega)

theorem tagSize_tagOf (aligned : size.toNat % 8 = 0) (small : size.toNat < 2 ^ 32)
    (bit : alloc.toNat ≤ 1) : tagSize (tagOf size alloc) = size.toNat := by
  rw [tagSize_eq, tagOf_toNat aligned small bit]
  omega

theorem isFree_iff : IsFree tag ↔ tag.toNat % 2 = 0 := by
  rw [IsFree, ← UInt32.toNat_inj, UInt32.toNat_and]
  exact Eq.congr_left (Nat.and_one_is_mod tag.toNat)

theorem isFree_tagOf_iff (aligned : size.toNat % 8 = 0) (small : size.toNat < 2 ^ 32)
    (bit : alloc.toNat ≤ 1) : IsFree (tagOf size alloc) ↔ alloc.toNat = 0 := by
  rw [isFree_iff, tagOf_toNat aligned small bit]
  omega

@[simp]
theorem get_put_self (memory : Nat → UInt8) (p : Nat) (val : UInt64) :
    get (put memory p val) p = val.toUInt32 := by
  rw [get, put, load_store_self, Nat.mod_eq_of_lt (show _ < 256 ^ 4 from val.toUInt32.toNat_lt)]
  exact UInt32.ofNat_toNat

theorem get_put_of_disjoint {other : Nat} (disjoint : other + 4 ≤ p ∨ p + 4 ≤ other) :
    get (put memory p val) other = get memory other := by
  rw [get, put, load_store_of_disjoint disjoint, get]

theorem prevBlkp_put (disjoint : bp - 16 + 4 ≤ p ∨ p + 4 ≤ bp - 16) :
    prevBlkp (put memory p val) bp = prevBlkp memory bp := by
  rw [prevBlkp, getSize, show bp - 2 * sizeTSize = bp - 16 from rfl, get_put_of_disjoint disjoint]
  rfl

theorem nextBlkp_put (disjoint : bp - 8 + 4 ≤ p ∨ p + 4 ≤ bp - 8) :
    nextBlkp (put memory p val) bp = nextBlkp memory bp := by
  rw [nextBlkp, getSize, show bp - sizeTSize = bp - 8 from rfl, get_put_of_disjoint disjoint]
  rfl

theorem ftrp_put (disjoint : bp - 8 + 4 ≤ p ∨ p + 4 ≤ bp - 8) :
    ftrp (put memory p val) bp = ftrp memory bp := by
  rw [ftrp, getSize, show hdrp bp = bp - 8 from rfl, get_put_of_disjoint disjoint]
  rfl

/-- The tags of `allocator.c` in slots of `SIZE_T_SIZE` bytes. -/
abbrev Holds (memory : Nat → UInt8) (start : Nat) (tag : UInt32) : Prop :=
  Carries tagSize sizeTSize (get memory) start tag

abbrev Retagged (memory other : Nat → UInt8) (start : Nat) (tag : UInt32) : Prop :=
  Rewrites tagSize sizeTSize (get memory) (get other) start tag

section

variable {memory : Nat → UInt8} {start : Nat} {tag : UInt32}

theorem hdrp_add (start : Nat) : hdrp (start + 8) = start := rfl

section

variable (holds : Holds memory start tag)
include holds

theorem Holds.getSize_eq : (getSize memory (hdrp (start + 8))).toNat = tagSize tag := by
  rw [hdrp_add, ← holds.header]
  rfl

theorem Holds.nextBlkp_eq : nextBlkp memory (start + 8) = start + tagSize tag + 8 := by
  have size := holds.getSize_eq
  rw [nextBlkp]
  rw [hdrp] at size
  omega

theorem Holds.ftrp_eq : ftrp memory (start + 8) = start + tagSize tag - 8 := by
  have size := holds.getSize_eq
  have roomy := holds.roomy
  rw [ftrp, size]
  simp only [sizeTSize] at roomy ⊢
  omega

theorem Holds.prevBlkp_eq : prevBlkp memory (start + tagSize tag + 8) = start + 8 := by
  have size : (getSize memory (start + tagSize tag + 8 - 2 * sizeTSize)).toNat = tagSize tag := by
    exact congrArg tagSize holds.footer
  rw [prevBlkp, size]
  omega

end

theorem Holds.congr {other : Nat → UInt8} (holds : Holds memory start tag)
    (same : ∀ address, address + 8 ≤ start + tagSize tag → get other address = get memory address) :
    Holds other start tag := by
  have roomy := holds.roomy
  simp only [sizeTSize] at roomy
  refine ⟨holds.roomy, ?_, ?_⟩
  · rw [same _ (by omega)]
    exact holds.header
  · rw [same _ (by simp only [sizeTSize]; omega)]
    exact holds.footer

section

variable {val : UInt64} (roomy : 16 ≤ tagSize val.toUInt32)
include roomy

theorem retagged_put_put : Retagged memory
        (put (put memory start val) (start + tagSize val.toUInt32 - 8) val)
        start val.toUInt32 ∧
      Retagged memory
        (put (put memory (start + tagSize val.toUInt32 - 8) val) start val)
        start val.toUInt32 := by
  refine ⟨⟨⟨roomy, ?_, get_put_self _ _ _⟩, fun address outside => ?_⟩,
    ⟨⟨roomy, get_put_self _ _ _, ?_⟩, fun address outside => ?_⟩⟩
  · rw [get_put_of_disjoint (by omega), get_put_self]
  · simp only [sizeTSize] at outside
    rw [get_put_of_disjoint (by omega), get_put_of_disjoint (by omega)]
  · simp only [sizeTSize]
    rw [get_put_of_disjoint (by omega), get_put_self]
  · simp only [sizeTSize] at outside
    rw [get_put_of_disjoint (by omega), get_put_of_disjoint (by omega)]

theorem putTags_eq : putTags memory (start + 8) val =
      put (put memory start val) (start + tagSize val.toUInt32 - 8) val := by
  have footer : ftrp (put memory start val) (start + 8) = start + tagSize val.toUInt32 - 8 := by
    have size : (getSize (put memory start val) (hdrp (start + 8))).toNat =
        tagSize val.toUInt32 := congrArg tagSize (get_put_self memory start val)
    rw [ftrp, size]
    simp only [sizeTSize]
    omega
  rw [putTags, hdrp_add, footer]

theorem retagged_putTags : Retagged memory (putTags memory (start + 8) val) start val.toUInt32 := by
  rw [putTags_eq roomy]
  exact (retagged_put_put roomy).1

end

end

def wordsAt (words : List (Nat × UInt64)) : Nat → UInt8 :=
  words.foldl (fun memory word => put memory word.1 word.2) fun _ => 0

end BitsAndBytes.Allocator
