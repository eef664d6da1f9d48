import BitsAndBytes.AllocatorTags

/-! # Joining free neighbours -/

namespace BitsAndBytes.Allocator

open BoundaryTags BlockTiling ByteMemory

variable {size : UInt64} {memory : Nat → UInt8}

/-- `coalesce` leaves one free block of `bytes` bytes at `start`. -/
structure Coalesces (memory : Nat → UInt8) (bp start bytes : Nat) : Prop where
  pointer : (coalesce memory bp).2 = start + 8
  retagged : ∃ joined, IsFree joined ∧ tagSize joined = bytes ∧
    Retagged memory (coalesce memory bp).1 start joined

structure CoalescesWithin (memory : Nat → UInt8) (bp start bytes : Nat) : Prop
    extends Coalesces memory bp start bytes where
  elsewhere : ∀ address, address < start ∨ start + bytes ≤ address →
    (coalesce memory bp).1 address = memory address

variable {bytes start : Nat} {tag : UInt32}

theorem joined_spec (sum : size.toNat = bytes) (aligned : bytes % 8 = 0) (small : bytes < 2 ^ 32) :
    IsFree (tagOf size 0) ∧ tagSize (tagOf size 0) = bytes := by
  subst sum
  exact ⟨(isFree_tagOf_iff aligned small (by decide)).mpr rfl,
    tagSize_tagOf aligned small (by decide)⟩

theorem coalesces_of_put {bp : Nat} (sum : size.toNat = bytes) (aligned : bytes % 8 = 0)
    (roomy : 16 ≤ bytes) (small : bytes < 2 ^ 32) (written : coalesce memory bp =
        (put (put memory start (pack size 0)) (start + bytes - 8) (pack size 0), start + 8) ∨
      coalesce memory bp =
        (put (put memory (start + bytes - 8) (pack size 0)) start (pack size 0), start + 8)) :
    CoalescesWithin memory bp start bytes := by
  obtain ⟨free, joined⟩ := joined_spec sum aligned small
  have retagged := @retagged_put_put memory start _ (joined.symm ▸ roomy)
  rw [← tagOf, joined] at retagged
  rcases written with written | written
  · refine ⟨⟨by rw [written], _, free, joined, ?_⟩, fun address outside => ?_⟩
    · rw [written]
      exact retagged.1
    · rw [written]
      exact (store_of_outside (by omega)).trans (store_of_outside (by omega))
  · refine ⟨⟨by rw [written], _, free, joined, ?_⟩, fun address outside => ?_⟩
    · rw [written]
      exact retagged.2
    · rw [written]
      exact (store_of_outside (by omega)).trans (store_of_outside (by omega))

theorem Holds.prevAlloc_eq (holds : Holds memory start tag) :
    getAlloc memory (ftrp memory (prevBlkp memory (start + tagSize tag + 8))) = tag &&& 1 := by
  rw [holds.prevBlkp_eq, holds.ftrp_eq, getAlloc]
  exact congrArg (· &&& 1) holds.footer

theorem Holds.nextAlloc_eq (holds : Holds memory start tag) :
    getAlloc memory (hdrp (nextBlkp memory (start + 8))) =
      get memory (start + tagSize tag) &&& 1 := by
  rw [holds.nextBlkp_eq, hdrp_add, getAlloc]

theorem toNat_add_sizes (first second : UInt32) :
    ((first &&& ~~~7).toUInt64 + (second &&& ~~~7).toUInt64).toNat =
      tagSize first + tagSize second := by
  have firstLt := tagSize_lt first
  have secondLt := tagSize_lt second
  rw [UInt64.toNat_add, UInt32.toNat_toUInt64, UInt32.toNat_toUInt64]
  exact Nat.mod_eq_of_lt (by simp only [tagSize] at *; omega)

section

variable {start : Nat} {prev tag next : UInt32} (prevHolds : Holds memory start prev)
  (tagHolds : Holds memory (start + tagSize prev) tag)
  (nextIs : get memory (start + tagSize prev + tagSize tag) = next)
include prevHolds tagHolds nextIs

theorem coalesce_neither_eq (prevUsed : ¬ IsFree prev) (nextUsed : ¬ IsFree next) :
    coalesce memory (start + tagSize prev + 8) = (memory, start + tagSize prev + 8) := by
  rw [coalesce, prevHolds.prevAlloc_eq, tagHolds.nextAlloc_eq, nextIs]
  exact if_pos ⟨prevUsed, nextUsed⟩

theorem coalesces_neither (free : IsFree tag) (prevUsed : ¬ IsFree prev)
    (nextUsed : ¬ IsFree next) :
    CoalescesWithin memory (start + tagSize prev + 8) (start + tagSize prev) (tagSize tag) := by
  have unchanged := coalesce_neither_eq prevHolds tagHolds nextIs prevUsed nextUsed
  refine ⟨⟨by rw [unchanged], tag, free, rfl, ?_⟩, fun _ _ => by rw [unchanged]⟩
  rw [unchanged]
  exact ⟨tagHolds, fun _ _ => rfl⟩

theorem coalesce_next_eq (prevUsed : ¬ IsFree prev) (nextFree : IsFree next) :
    ∃ size, size = (tag &&& ~~~7).toUInt64 + (next &&& ~~~7).toUInt64 ∧
      coalesce memory (start + tagSize prev + 8) =
        (putTags memory (start + tagSize prev + 8) (pack size 0), start + tagSize prev + 8) := by
  refine ⟨_, rfl, ?_⟩
  rw [coalesce, prevHolds.prevAlloc_eq, tagHolds.nextAlloc_eq, nextIs]
  rw [if_neg fun both => both.2 nextFree, if_pos ⟨prevUsed, nextFree⟩]
  rw [tagHolds.nextBlkp_eq, hdrp_add, hdrp_add, getSize, getSize, nextIs, tagHolds.header]

theorem coalesces_next (prevUsed : ¬ IsFree prev) (nextFree : IsFree next)
    (small : tagSize tag + tagSize next < 2 ^ 32) :
    CoalescesWithin memory (start + tagSize prev + 8) (start + tagSize prev)
      (tagSize tag + tagSize next) := by
  have roomy : 16 ≤ tagSize tag := tagHolds.roomy
  have aligned := tagSize_mod_eight tag
  have nextAligned := tagSize_mod_eight next
  obtain ⟨size, sizeIs, merged⟩ := coalesce_next_eq prevHolds tagHolds nextIs prevUsed nextFree
  have sum : size.toNat = tagSize tag + tagSize next := by rw [sizeIs, toNat_add_sizes]
  have bytes : tagSize (pack size 0).toUInt32 = tagSize tag + tagSize next :=
    (joined_spec sum (by omega) small).2
  refine coalesces_of_put sum (by omega) (by omega) small (.inl ?_)
  rw [merged, putTags_eq (by omega), bytes]

theorem coalesce_prev_eq (prevFree : IsFree prev) (nextUsed : ¬ IsFree next) :
    ∃ size, size = (tag &&& ~~~7).toUInt64 + (prev &&& ~~~7).toUInt64 ∧
      coalesce memory (start + tagSize prev + 8) =
        (put (put memory (start + tagSize prev + tagSize tag - 8) (pack size 0))
          start (pack size 0), start + 8) := by
  have roomy := tagHolds.roomy
  have prevRoomy := prevHolds.roomy
  simp only [sizeTSize] at roomy prevRoomy
  obtain ⟨size, sizeIs⟩ : ∃ size,
      size = (tag &&& ~~~7).toUInt64 + (prev &&& ~~~7).toUInt64 := ⟨_, rfl⟩
  refine ⟨size, sizeIs, ?_⟩
  rw [coalesce, prevHolds.prevAlloc_eq, tagHolds.nextAlloc_eq, nextIs]
  rw [if_neg fun both => both.1 prevFree, if_neg fun both => both.1 prevFree,
    if_pos ⟨prevFree, nextUsed⟩]
  rw [prevHolds.prevBlkp_eq, tagHolds.ftrp_eq, hdrp_add, hdrp_add, getSize,
    getSize, prevHolds.header, tagHolds.header, ← sizeIs]
  dsimp only
  rw [prevBlkp_put (by omega), prevHolds.prevBlkp_eq, hdrp_add,
    prevBlkp_put (by omega), prevBlkp_put (by omega), prevHolds.prevBlkp_eq]

theorem coalesces_prev (prevFree : IsFree prev) (nextUsed : ¬ IsFree next)
    (small : tagSize prev + tagSize tag < 2 ^ 32) :
    CoalescesWithin memory (start + tagSize prev + 8) start (tagSize prev + tagSize tag) := by
  have roomy : 16 ≤ tagSize tag := tagHolds.roomy
  have aligned := tagSize_mod_eight tag
  have prevAligned := tagSize_mod_eight prev
  obtain ⟨size, sizeIs, merged⟩ := coalesce_prev_eq prevHolds tagHolds nextIs prevFree nextUsed
  have sum : size.toNat = tagSize prev + tagSize tag := by
    rw [sizeIs, toNat_add_sizes, Nat.add_comm]
  refine coalesces_of_put sum (by omega) (by omega) small (.inr ?_)
  rw [merged, Nat.add_assoc start]

section

variable (nextHolds : Holds memory (start + tagSize prev + tagSize tag) next)
  (prevFree : IsFree prev) (nextFree : IsFree next)
include nextHolds prevFree nextFree

theorem coalesce_both_eq :
    ∃ size, size = (tag &&& ~~~7).toUInt64 + ((prev &&& ~~~7) + (next &&& ~~~7)).toUInt64 ∧
      coalesce memory (start + tagSize prev + 8) = (put (put memory start (pack size 0))
          (start + tagSize prev + tagSize tag + tagSize next - 8) (pack size 0), start + 8) := by
  have roomy := tagHolds.roomy
  have prevRoomy := prevHolds.roomy
  have nextRoomy := nextHolds.roomy
  simp only [sizeTSize] at roomy prevRoomy nextRoomy
  obtain ⟨size, sizeIs⟩ : ∃ size, size = (tag &&& ~~~7).toUInt64 +
      ((prev &&& ~~~7) + (next &&& ~~~7)).toUInt64 := ⟨_, rfl⟩
  have nextFooter : get memory (start + tagSize prev + tagSize tag + tagSize next - 8) = next :=
    nextHolds.footer
  refine ⟨size, sizeIs, ?_⟩
  rw [coalesce, prevHolds.prevAlloc_eq, tagHolds.nextAlloc_eq, nextIs]
  rw [if_neg fun both => both.1 prevFree, if_neg fun both => both.1 prevFree,
    if_neg fun both => both.2 nextFree]
  rw [prevHolds.prevBlkp_eq, tagHolds.nextBlkp_eq, nextHolds.ftrp_eq, hdrp_add,
    hdrp_add, getSize, getSize, getSize, prevHolds.header, tagHolds.header, nextFooter, ← sizeIs]
  dsimp only
  rw [nextBlkp_put (by omega), tagHolds.nextBlkp_eq, ftrp_put (by omega),
    nextHolds.ftrp_eq, prevBlkp_put (by omega), prevBlkp_put (by omega), prevHolds.prevBlkp_eq]

theorem coalesces_both (small : tagSize prev + tagSize tag + tagSize next < 2 ^ 32) :
    CoalescesWithin memory (start + tagSize prev + 8) start
      (tagSize prev + tagSize tag + tagSize next) := by
  have roomy : 16 ≤ tagSize tag := tagHolds.roomy
  have aligned := tagSize_mod_eight tag
  have prevAligned := tagSize_mod_eight prev
  have nextAligned := tagSize_mod_eight next
  obtain ⟨size, sizeIs, merged⟩ :=
    coalesce_both_eq prevHolds tagHolds nextIs nextHolds prevFree nextFree
  have sum : size.toNat = tagSize prev + tagSize tag + tagSize next := by
    simp only [tagSize] at small ⊢
    rw [sizeIs, UInt64.toNat_add, UInt32.toNat_toUInt64, UInt32.toNat_toUInt64, UInt32.toNat_add]
    omega
  refine coalesces_of_put sum (by omega) (by omega) small (.inl ?_)
  rw [merged, Nat.add_assoc start, Nat.add_assoc start]

end

end

end BitsAndBytes.Allocator
