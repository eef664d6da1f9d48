import BitsAndBytes.AllocatorLayout

/-! # Calls on well-tagged heaps -/

namespace BitsAndBytes.Allocator

open BoundaryTags BlockTiling List Option

variable {size : UInt64} {bp : Nat} {memory : Nat → UInt8} {prev : UInt32} {before : List UInt32}

theorem asizeOf_toNat (large : sizeTSize < size.toNat) (noWrap : size.toNat + 23 < 2 ^ 64) :
    (asizeOf size).toNat = (size.toNat + 23) / 8 * 8 := by
  have sum : (size + 16).toNat = size.toNat + 16 := by
    exact Nat.mod_eq_of_lt (show size.toNat + 16 < 2 ^ 64 by omega)
  rw [asizeOf, if_neg (by omega), align_toNat (by omega), sum]

section

variable {heap : Heap} (nonzero : size ≠ 0)
include nonzero

theorem mMalloc_of_fit (searched : findFit heap (asizeOf size) = some (some bp)) :
    mMalloc heap size = some (placeAt heap bp (asizeOf size)) := by
  rw [mMalloc, if_neg nonzero]
  dsimp only
  rw [searched]
  rfl

theorem mMalloc_of_extension {newHeap : Heap} (searched : findFit heap (asizeOf size) = some none)
    (extended : extendHeap heap (extendsizeOf (asizeOf size) / 8) = some (newHeap, bp)) :
    mMalloc heap size = some (placeAt newHeap bp (asizeOf size)) := by
  rw [mMalloc, if_neg nonzero]
  dsimp only
  rw [searched, map_some, extended]

theorem mMalloc_of_refusal (searched : findFit heap (asizeOf size) = some none)
    (refused : extendHeap heap (extendsizeOf (asizeOf size) / 8) = none) :
    mMalloc heap size = some (heap, none) := by
  rw [mMalloc, if_neg nonzero]
  dsimp only
  rw [searched, map_some, refused]

end

variable {start : Nat} {tag next : UInt32} {after : List UInt32}

theorem placeAt_whole (heap : Heap) {asize : UInt64} (holds : Holds heap.memory start tag)
    (spare : tagSize tag = asize.toNat + 8) :
    ∃ memory newTag, placeAt heap (start + 8) asize =
        ({ heap with memory := memory }, some (start + 16)) ∧
      ¬ IsFree newTag ∧ tagSize newTag = tagSize tag ∧
        Retagged heap.memory memory start newTag := by
  have roomy := holds.roomy
  have small := tagSize_lt tag
  have aligned := tagSize_mod_eight tag
  obtain ⟨csize, csizeIs⟩ : ∃ csize, csize =
      (getSize heap.memory (hdrp (start + 8))).toUInt64 := ⟨_, rfl⟩
  have csizeToNat : csize.toNat = tagSize tag := by
    rw [csizeIs, UInt32.toNat_toUInt64, holds.getSize_eq]
  have unsplit : ¬ 2 * sizeTSize ≤ (csize - asize).toNat := by
    have rest : (csize - asize).toNat = csize.toNat - asize.toNat :=
      UInt64.toNat_sub_of_le _ _ (UInt64.le_iff_toNat_le.mpr (by omega))
    simp only [sizeTSize]
    omega
  have bytes : tagSize (tagOf csize 1) = tagSize tag := by
    rw [tagSize_tagOf (by omega) (by omega) (by decide), csizeToNat]
  have used : ¬ IsFree (tagOf csize 1) := by
    rw [isFree_tagOf_iff (by omega) (by omega) (by decide)]
    decide
  refine ⟨putTags heap.memory (start + 8) (pack csize 1), tagOf csize 1, ?_,
    used, bytes, retagged_putTags (by rw [← tagOf, bytes]; exact roomy)⟩
  rw [placeAt, splitBlock, ← csizeIs]
  rw [if_neg unsplit]
  rfl

/-- `extend_heap` puts a block in the place of the epilogue, and a zero word stands behind it. -/
structure Extensible (heap : Heap) (bytes : Nat) : Prop where
  atEpilogue : IsBlock heap.memory heap.heapStart heap.currentBreak
  zeroSize : getSize heap.memory (hdrp heap.currentBreak) = 0
  lastUsed : getAlloc heap.memory (heap.currentBreak - 2 * sizeTSize) ≠ 0
  room : heap.currentBreak + bytes ≤ heap.heapEnd
  small : bytes < 2 ^ 32
  newEpilogue : getSize heap.memory (hdrp (heap.currentBreak + bytes)) = 0

theorem tagSize_eq_zero_of_getSize {p : Nat} (zeroSize : getSize memory p = 0) :
    tagSize (get memory p) = 0 :=
  congrArg UInt32.toNat zeroSize

namespace WellTagged

variable {heap : Heap} {start : Nat} {first : UInt32} {tags : List UInt32}
  (wellTagged : WellTagged heap start first tags)
include wellTagged

theorem eq_epilogue (isBlock : IsBlock heap.memory heap.heapStart bp)
    (zeroSize : getSize heap.memory (hdrp bp) = 0) :
    bp = start + extent tagSize (first :: tags) + 8 := by
  obtain ⟨walkStart, walked, startIs, tagged, same, -⟩ := wellTagged.exists_walk
  have stops := wellTagged.epilogue
  rw [← same] at stops ⊢
  rw [startIs, isBlock_iff_mem_pointers tagged stops] at isBlock
  rcases isBlock with member | isEnd
  · have positive := getSize_pos_of_mem tagged member
    rw [zeroSize] at positive
    exact absurd positive (by decide)
  · exact isEnd

theorem exists_last : ∃ before last, first :: tags = before ++ [last] ∧
      Holds heap.memory (start + extent tagSize before) last := by
  obtain ⟨before, last, splits⟩ : ∃ before last, first :: tags = before ++ [last] :=
    ⟨_, _, (dropLast_append_getLast (cons_ne_nil first tags)).symm⟩
  have tagged := wellTagged.tagged
  rw [splits, tagged_append, tagged_cons] at tagged
  exact ⟨before, last, splits, tagged.2.1⟩

theorem extend (newBreak : Nat)
    (retagged : Retagged heap.memory memory (start + extent tagSize (first :: tags)) tag)
    (stops : tagSize (get memory (start + extent tagSize (first :: tags) + tagSize tag)) = 0)
    (room : start + extent tagSize (first :: tags) + tagSize tag + 8 ≤ heap.heapEnd) :
    WellTagged { heap with memory := memory, currentBreak := newBreak } start
      first (tags ++ [tag]) := by
  have total : start + extent tagSize (first :: (tags ++ [tag])) =
      start + extent tagSize (first :: tags) + tagSize tag := by
    simp only [extent_cons, extent_append, extent_nil]
    omega
  have extended : Tagged tagSize sizeTSize (get memory) start ((first :: tags) ++ [tag]) := by
    rw [tagged_append]
    refine ⟨wellTagged.tagged.congr fun address _ upper => ?_,
      tagged_cons.mpr ⟨retagged.carries, tagged_nil⟩⟩
    exact retagged.elsewhere address (.inl upper)
  refine ⟨extended, wellTagged.prologue, ?_, wellTagged.begins, ?_⟩
  · rw [total]
    exact stops
  · rw [total]
    exact room

theorem retagged_extension (extensible : Extensible heap size.toNat)
    (aligned : size.toNat % 8 = 0) (roomy : 16 ≤ size.toNat) :
    Retagged heap.memory (putTags heap.memory heap.currentBreak (pack size 0))
      (start + extent tagSize (first :: tags)) (tagOf size 0) := by
  have bytes := (joined_spec rfl aligned extensible.small).2
  rw [wellTagged.eq_epilogue extensible.atEpilogue extensible.zeroSize]
  exact retagged_putTags (by rw [← tagOf, bytes]; exact roomy)

theorem coalesces_extension (extensible : Extensible heap size.toNat)
    (aligned : size.toNat % 8 = 0) (roomy : 16 ≤ size.toNat) :
    Coalesces (putTags heap.memory heap.currentBreak (pack size 0))
      heap.currentBreak (start + extent tagSize (first :: tags)) size.toNat := by
  have written := wellTagged.retagged_extension extensible aligned roomy
  have breakIs := wellTagged.eq_epilogue extensible.atEpilogue extensible.zeroSize
  obtain ⟨free, bytes⟩ := joined_spec rfl aligned extensible.small
  obtain ⟨before, last, splits, lastHolds⟩ := wellTagged.exists_last
  have endIs : start + extent tagSize (first :: tags) =
      start + extent tagSize before + tagSize last := by
    rw [splits, extent_append, extent_cons, extent_nil]
    omega
  have lastUsed : ¬ IsFree last := by
    have used := extensible.lastUsed
    rw [getAlloc, breakIs, endIs] at used
    rw [IsFree, ← lastHolds.footer]
    exact used
  obtain ⟨next, nextIs⟩ : ∃ next, get heap.memory
      (start + extent tagSize (first :: tags) + size.toNat) = next := ⟨_, rfl⟩
  have nextZero : tagSize next = 0 := by
    have zero := tagSize_eq_zero_of_getSize extensible.newEpilogue
    rw [breakIs, Nat.add_right_comm, hdrp_add, nextIs] at zero
    exact zero
  have nextStays := written.elsewhere _ (.inr (Nat.le_refl _))
  rw [bytes, nextIs, ← bytes] at nextStays
  rw [endIs] at written nextStays breakIs ⊢
  have lastStays := written.carries_before lastHolds
  have small := extensible.small
  by_cases nextFree : IsFree next
  · have joins := (coalesces_next lastStays written.carries nextStays lastUsed nextFree
      (by omega)).toCoalesces
    rwa [bytes, nextZero, Nat.add_zero, ← breakIs] at joins
  · have joins := (coalesces_neither lastStays written.carries nextStays free lastUsed
      nextFree).toCoalesces
    rwa [bytes, ← breakIs] at joins

theorem extendHeap_spec {words : UInt64} (extensible : Extensible heap (extensionSize words).toNat)
    (aligned : (extensionSize words).toNat % 8 = 0) (roomy : 16 ≤ (extensionSize words).toNat) :
    ∃ memory newBreak tag, extendHeap heap words =
        some ({ heap with memory := memory, currentBreak := newBreak },
          start + extent tagSize (first :: tags) + 8) ∧
      tagSize tag = (extensionSize words).toNat ∧
      Retagged heap.memory memory (start + extent tagSize (first :: tags)) tag := by
  have written := wellTagged.retagged_extension extensible aligned roomy
  have coalesces := wellTagged.coalesces_extension extensible aligned roomy
  have bytes := (joined_spec rfl aligned extensible.small).2
  obtain ⟨tag, -, tagBytes, retagged⟩ := coalesces.retagged
  have inside : ¬ heap.heapEnd < (heap.currentBreak + (extensionSize words).toNat) % 2 ^ 64 := by
    have room := extensible.room
    omega
  refine ⟨(coalesce (putTags heap.memory heap.currentBreak
      (pack (extensionSize words) 0)) heap.currentBreak).1,
    (heap.currentBreak + (extensionSize words).toNat) % 2 ^ 64, tag, ?_,
    tagBytes, written.trans (by rw [tagBytes, bytes]) retagged⟩
  rw [extendHeap]
  dsimp only
  rw [if_neg inside, coalesces.pointer]

end WellTagged

theorem exists_cleared_of_header {heap : Heap} (header : get heap.memory start = tag)
    (roomy : 16 ≤ tagSize tag) :
    ∃ cleared freed, IsFree freed ∧ tagSize freed = tagSize tag ∧
      Retagged heap.memory cleared start freed ∧
      mFree heap (some (start + 16)) =
        { heap with memory := (coalesce cleared (start + 8)).1 } := by
  obtain ⟨size, sizeIs⟩ : ∃ size,
      size = (getSize heap.memory (hdrp (start + 8))).toUInt64 := ⟨_, rfl⟩
  have sizeToNat : size.toNat = tagSize tag := by
    rw [sizeIs, UInt32.toNat_toUInt64, hdrp_add, getSize, header, tagSize]
  obtain ⟨free, bytes⟩ := joined_spec sizeToNat (tagSize_mod_eight tag) (tagSize_lt tag)
  refine ⟨putTags heap.memory (start + 8) (pack size 0), tagOf size 0, free, bytes,
    retagged_putTags (by rw [← tagOf, bytes]; exact roomy), ?_⟩
  rw [mFree, sizeIs]
  rfl

def freeBytes (tag : UInt32) : Nat :=
  if IsFree tag then tagSize tag else 0

/-- The block fits into a tag with its free neighbours, and none of them is the epilogue. -/
structure Joinable (memory : Nat → UInt8) (bp : Nat) : Prop where
  small : freeBytes (get memory (hdrp (prevBlkp memory bp))) + (getSize memory (hdrp bp)).toNat +
      freeBytes (get memory (hdrp (nextBlkp memory bp))) < 2 ^ 32
  notAtEpilogue : IsFree (get memory (hdrp (prevBlkp memory bp))) →
    IsFree (get memory (hdrp (nextBlkp memory bp))) → 0 < getSize memory (hdrp (nextBlkp memory bp))

theorem joinable_iff (prevHolds : Holds memory start prev)
    (tagHolds : Holds memory (start + tagSize prev) tag)
    (nextIs : get memory (start + tagSize prev + tagSize tag) =
      next) :
    Joinable memory (start + tagSize prev + 8) ↔
      freeBytes prev + tagSize tag + freeBytes next < 2 ^ 32 ∧
        (IsFree prev → IsFree next → 0 < tagSize next) := by
  have prevIs : get memory (hdrp (prevBlkp memory (start + tagSize prev + 8))) = prev := by
    rw [prevHolds.prevBlkp_eq, hdrp_add]
    exact prevHolds.header
  have nextWord : get memory (hdrp (nextBlkp memory (start + tagSize prev + 8))) = next := by
    rw [tagHolds.nextBlkp_eq, hdrp_add]
    exact nextIs
  have positive : 0 < getSize memory (hdrp (nextBlkp memory
      (start + tagSize prev + 8))) ↔ 0 < tagSize next := by
    rw [tagHolds.nextBlkp_eq, getSize_pos_iff, nextIs]
  constructor
  · rintro ⟨small, notAtEpilogue⟩
    rw [prevIs, nextWord, tagHolds.getSize_eq] at small
    rw [prevIs, nextWord, positive] at notAtEpilogue
    exact ⟨small, notAtEpilogue⟩
  · rintro ⟨small, notAtEpilogue⟩
    refine ⟨?_, ?_⟩
    · rw [prevIs, nextWord, tagHolds.getSize_eq]
      exact small
    · rw [prevIs, nextWord, positive]
      exact notAtEpilogue

namespace WellTagged

variable {heap : Heap} {start : Nat} {first : UInt32} {tags : List UInt32}
  (wellTagged : WellTagged heap start first tags)
include wellTagged

theorem exists_prev (splits : tags = before ++ tag :: after) :
    ∃ earlier prev, first :: before = earlier ++ [prev] ∧
      start + tagSize first + extent tagSize before =
        start + extent tagSize earlier + tagSize prev ∧
      Holds heap.memory (start + extent tagSize earlier) prev ∧
      Holds heap.memory (start + extent tagSize earlier + tagSize prev) tag := by
  obtain ⟨earlier, prev, isLast⟩ : ∃ earlier prev, first :: before = earlier ++ [prev] :=
    ⟨_, _, (dropLast_append_getLast (cons_ne_nil first before)).symm⟩
  have address : start + tagSize first + extent tagSize before =
      start + extent tagSize earlier + tagSize prev := by
    have total := congrArg (extent tagSize) isLast
    rw [extent_append, extent_cons, extent_cons, extent_nil] at total
    omega
  have tagged := wellTagged.tagged
  rw [splits, ← cons_append, isLast, append_assoc, singleton_append,
    tagged_append, tagged_cons, tagged_cons] at tagged
  exact ⟨earlier, prev, isLast, address, tagged.2.1, tagged.2.2.1⟩

theorem next_cases (splits : tags = before ++ tag :: after)
    (nextIs : get heap.memory (start + tagSize first + extent tagSize before + tagSize tag) =
      next) :
    after = [] ∧ tagSize next = 0 ∨ ∃ rest, after = next :: rest ∧ Holds heap.memory
        (start + tagSize first + extent tagSize before + tagSize tag) next := by
  cases after with
  | nil =>
    have zero := wellTagged.epilogue
    rw [splits, extent_cons, extent_append, extent_cons, extent_nil,
      Nat.add_zero, ← Nat.add_assoc, ← Nat.add_assoc, nextIs] at zero
    exact .inl ⟨rfl, zero⟩
  | cons head rest =>
    have tagged := wellTagged.tagged
    rw [splits, tagged_cons, tagged_append, tagged_cons, tagged_cons] at tagged
    have holds := tagged.2.2.2.1
    rw [holds.header] at nextIs
    subst nextIs
    exact .inr ⟨rest, rfl, holds⟩

theorem join (before group : List UInt32) (splits : tags = before ++ group ++ after)
    (free : ∀ tag ∈ group, IsFree tag)
    (coalesces : CoalescesWithin heap.memory bp (start + tagSize first + extent tagSize before)
      (extent tagSize group)) :
    ∃ newTags, WellTagged { heap with memory := (coalesce heap.memory bp).1 }
        start first newTags ∧
      ∀ placed ∈ place tagSize (start + tagSize first) tags, ¬ IsFree placed.2 →
        placed ∈ place tagSize (start + tagSize first) newTags := by
  obtain ⟨joined, -, bytes, retagged⟩ := coalesces.retagged
  refine ⟨before ++ joined :: after, wellTagged.replace splits bytes.symm retagged, ?_⟩
  intro placed member used
  rw [splits] at member
  rcases mem_place_replace bytes.symm member with stays | inGroup
  · exact stays
  · obtain ⟨earlier, later, rfl, -⟩ := exists_split_of_mem_place inGroup
    exact absurd (free placed.2 (by simp)) used

theorem before_of_isFree {earlier : List UInt32} (isLast : first :: before = earlier ++ [prev])
    (free : IsFree prev) : ∃ between, earlier = first :: between ∧ before = between ++ [prev] := by
  cases earlier with
  | nil =>
    rw [nil_append, cons.injEq] at isLast
    rw [← isLast.1] at free
    exact absurd free wellTagged.prologue
  | cons head between =>
    rw [cons_append, cons.injEq] at isLast
    exact ⟨between, by rw [isLast.1], isLast.2⟩

theorem coalesce_spec (splits : tags = before ++ tag :: after) (free : IsFree tag)
    (joinable : Joinable heap.memory (start + tagSize first + extent tagSize before + 8)) :
    ∃ newTags, WellTagged { heap with memory := (coalesce heap.memory
          (start + tagSize first + extent tagSize before + 8)).1 }
        start first newTags ∧
      ∀ placed ∈ place tagSize (start + tagSize first) tags, ¬ IsFree placed.2 →
        placed ∈ place tagSize (start + tagSize first) newTags := by
  obtain ⟨earlier, prev, isLast, address, prevHolds, tagHolds⟩ := wellTagged.exists_prev splits
  obtain ⟨next, nextIs⟩ : ∃ next, get heap.memory (start + tagSize first +
      extent tagSize before + tagSize tag) = next := ⟨_, rfl⟩
  have behind := wellTagged.next_cases splits nextIs
  rw [address] at nextIs joinable
  obtain ⟨small, notAtEpilogue⟩ := (joinable_iff prevHolds tagHolds nextIs).mp joinable
  by_cases prevFree : IsFree prev
  · obtain ⟨between, rfl, rfl⟩ := wellTagged.before_of_isFree isLast prevFree
    have prevAddress : start + extent tagSize (first :: between) =
        start + tagSize first + extent tagSize between := by
      rw [extent_cons, Nat.add_assoc]
    rw [freeBytes, if_pos prevFree] at small
    by_cases nextFree : IsFree next
    · rcases behind with ⟨-, zero⟩ | ⟨rest, rfl, nextHolds⟩
      · exact absurd (notAtEpilogue prevFree nextFree) (by omega)
      · rw [freeBytes, if_pos nextFree] at small
        rw [address] at nextHolds ⊢
        have joins := coalesces_both prevHolds tagHolds nextIs nextHolds prevFree nextFree small
        apply wellTagged.join between [prev, tag, next] (by simpa using splits)
          (by simp [prevFree, free, nextFree])
        simpa [Nat.add_assoc] using joins
    · have joins := coalesces_prev prevHolds tagHolds nextIs prevFree nextFree (by omega)
      rw [address]
      rw [prevAddress] at joins ⊢
      apply wellTagged.join between [prev, tag] (by simpa using splits) (by simp [prevFree, free])
      simpa using joins
  · by_cases nextFree : IsFree next
    · rw [freeBytes, freeBytes, if_neg prevFree, if_pos nextFree] at small
      have joins := coalesces_next prevHolds tagHolds nextIs prevFree nextFree (by omega)
      rw [← address] at joins
      rcases behind with ⟨rfl, zero⟩ | ⟨rest, rfl, -⟩
      · apply wellTagged.join before [tag] (by simpa using splits) (by simp [free])
        simpa [zero] using joins
      · apply wellTagged.join before [tag, next] (by simpa using splits) (by simp [free, nextFree])
        simpa using joins
    · have joins := coalesces_neither prevHolds tagHolds nextIs free prevFree nextFree
      rw [← address] at joins
      apply wellTagged.join before [tag] (by simpa using splits) (by simp [free])
      simpa using joins

theorem mFree_spec (splits : tags = before ++ tag :: after)
    (joinable : Joinable heap.memory (start + tagSize first + extent tagSize before + 8)) :
    ∃ memory newTags, mFree heap (some (start + tagSize first +
          extent tagSize before + 16)) = { heap with memory := memory } ∧
      WellTagged { heap with memory := memory } start first newTags ∧
      ∀ placed ∈ place tagSize (start + tagSize first) tags, ¬ IsFree placed.2 →
        placed.1 ≠ start + tagSize first + extent tagSize before →
          placed ∈ place tagSize (start + tagSize first) newTags := by
  obtain ⟨earlier, prev, isLast, address, prevHolds, tagHolds⟩ := wellTagged.exists_prev splits
  obtain ⟨cleared, freed, free, bytes, retagged, freeEq⟩ :=
    exists_cleared_of_header tagHolds.header tagHolds.roomy
  rw [← address] at retagged freeEq
  have covers : extent tagSize [tag] = tagSize freed := by
    rw [bytes, extent_cons, extent_nil, Nat.add_zero]
  have clearedWell := wellTagged.replace (by simpa using splits) covers retagged
  have stillJoinable : Joinable cleared (start + tagSize first + extent tagSize before + 8) := by
    have nextStays := retagged.elsewhere _ (.inr (Nat.le_refl _))
    have clearedHolds := retagged.carries
    rw [address] at retagged nextStays clearedHolds joinable ⊢
    rw [joinable_iff prevHolds tagHolds rfl] at joinable
    rw [joinable_iff (retagged.carries_before prevHolds) clearedHolds nextStays, bytes]
    exact joinable
  obtain ⟨newTags, newWell, stays⟩ := clearedWell.coalesce_spec rfl free stillJoinable
  refine ⟨_, newTags, freeEq, newWell, fun placed member used elsewhere => ?_⟩
  apply stays placed _ used
  rw [splits, append_cons] at member
  rcases mem_place_replace covers member with kept | isTag
  · exact kept
  · rw [place_cons, place_nil, mem_singleton] at isTag
    exact absurd (congrArg Prod.fst isTag) elsewhere

end WellTagged

end BitsAndBytes.Allocator
