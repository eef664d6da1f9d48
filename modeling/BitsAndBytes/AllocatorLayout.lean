import BitsAndBytes.AllocatorCoalesce

/-! # Well-tagged heaps -/

namespace BitsAndBytes.Allocator

open BoundaryTags BlockTiling LinkedTraversal List

variable {memory : Nat → UInt8} {bp : Nat} {asize : UInt64}

/-- The blocks of the heap lie between an allocated prologue and a zero-size epilogue. -/
structure WellTagged (heap : Heap) (start : Nat) (first : UInt32)
    (tags : List UInt32) : Prop where
  tagged : Tagged tagSize sizeTSize (get heap.memory) start (first :: tags)
  prologue : ¬ IsFree first
  epilogue : tagSize (get heap.memory (start + extent tagSize (first :: tags))) = 0
  begins : heap.heapStart = start + 8 ∨ heap.heapStart = start + tagSize first + 8
  ends : start + extent tagSize (first :: tags) + 8 ≤ heap.heapEnd

/-- The block pointers that a walk over the heap meets. -/
inductive IsBlock (memory : Nat → UInt8) (first : Nat) : Nat → Prop
  | first : IsBlock memory first first
  | next {bp : Nat} : IsBlock memory first bp →
      0 < getSize memory (hdrp bp) → IsBlock memory first (nextBlkp memory bp)

def pointers (start : Nat) (tags : List UInt32) : List Nat :=
  (place tagSize start tags).map fun placed => placed.1 + 8

theorem isBlock_iff_head {first : Nat} : IsBlock memory first bp ↔
      bp = first ∨ 0 < getSize memory (hdrp first) ∧ IsBlock memory (nextBlkp memory first) bp := by
  constructor
  · intro isBlock
    induction isBlock with
    | first => exact .inl rfl
    | next _ positive ih =>
      rcases ih with rfl | ⟨firstPositive, later⟩
      · exact .inr ⟨positive, .first⟩
      · exact .inr ⟨firstPositive, later.next positive⟩
  · rintro (rfl | ⟨positive, later⟩)
    · exact .first
    · induction later with
      | first => exact IsBlock.first.next positive
      | next _ positive ih => exact ih.next positive

theorem getSize_pos_iff {start : Nat} :
    0 < getSize memory (hdrp (start + 8)) ↔ 0 < tagSize (get memory start) :=
  UInt32.lt_iff_toNat_lt

section

variable {start : Nat} {tags : List UInt32}
  (tagged : Tagged tagSize sizeTSize (get memory) start tags)
include tagged

theorem getSize_pos_of_mem (member : bp ∈ pointers start tags) : 0 < getSize memory (hdrp bp) := by
  obtain ⟨placed, placedMem, rfl⟩ := mem_map.mp member
  have carries := tagged placed placedMem
  have roomy := carries.roomy
  rw [getSize_pos_iff, carries.header]
  simp only [sizeTSize] at roomy
  omega

theorem pairwise_pointers : (pointers start tags).Pairwise (· < ·) := by
  rw [pointers, pairwise_map]
  refine (pairwise_place start tags).imp_of_mem ?_
  intro placed later placedMem _ ordered
  have roomy := (tagged placed placedMem).roomy
  simp only [sizeTSize] at roomy
  omega

variable (stops : tagSize (get memory (start + extent tagSize tags)) = 0)
include stops

theorem isBlock_iff_mem_pointers : IsBlock memory (start + 8) bp ↔
      bp ∈ pointers start tags ∨ bp = start + extent tagSize tags + 8 := by
  induction tags generalizing start with
  | nil =>
    rw [extent_nil, Nat.add_zero] at stops
    rw [isBlock_iff_head, getSize_pos_iff, stops]
    simp [pointers]
  | cons tag tags ih =>
    rw [tagged_cons] at tagged
    rw [extent_cons, ← Nat.add_assoc] at stops
    have holds : Holds memory start tag := tagged.1
    have roomy := holds.roomy
    simp only [sizeTSize] at roomy
    have positive : 0 < tagSize tag := by omega
    rw [isBlock_iff_head, getSize_pos_iff, holds.header, holds.nextBlkp_eq, ih tagged.2 stops]
    simp [pointers, positive, Nat.add_assoc, or_assoc]

theorem path_pointers : Path (fun bp => blockAt memory (nextBlkp memory bp))
      (blockAt memory (start + 8)) (pointers start tags) none := by
  induction tags generalizing start with
  | nil =>
    rw [extent_nil, Nat.add_zero] at stops
    have ended : ¬ 0 < getSize memory (hdrp (start + 8)) := by
      rw [getSize_pos_iff, stops]
      exact Nat.lt_irrefl 0
    exact if_neg ended
  | cons tag tags ih =>
    rw [extent_cons, ← Nat.add_assoc] at stops
    have positive : 0 < getSize memory (hdrp (start + 8)) :=
      getSize_pos_of_mem tagged (by simp [pointers])
    rw [tagged_cons] at tagged
    have holds : Holds memory start tag := tagged.1
    refine ⟨if_pos positive, ?_⟩
    dsimp only
    rw [holds.nextBlkp_eq]
    exact ih tagged.2 stops

end

structure Available (heap : Heap) (asize : UInt64) (bp : Nat) : Prop where
  isBlock : IsBlock heap.memory heap.heapStart bp
  positive : 0 < getSize heap.memory (hdrp bp)
  fits : fits heap.memory asize bp

/-- The block that `find_fit` returns. -/
structure FirstFit (heap : Heap) (asize : UInt64) (bp : Nat) : Prop where
  available : Available heap asize bp
  first : ∀ other < bp, ¬ Available heap asize other

def NoFit (heap : Heap) (asize : UInt64) : Prop :=
  ∀ bp, ¬ Available heap asize bp

namespace WellTagged

variable {heap : Heap} {start : Nat} {first : UInt32} {tags : List UInt32}
  (wellTagged : WellTagged heap start first tags)
include wellTagged

theorem exists_walk : ∃ walkStart walked, heap.heapStart = walkStart + 8 ∧
      Tagged tagSize sizeTSize (get heap.memory) walkStart walked ∧
      walkStart + extent tagSize walked = start + extent tagSize (first :: tags) ∧
      (∀ placed ∈ place tagSize walkStart walked,
        placed ∈ place tagSize start (first :: tags)) := by
  have tagged := wellTagged.tagged
  rcases wellTagged.begins with atPrologue | behind
  · exact ⟨start, first :: tags, atPrologue, tagged, rfl, fun _ member => member⟩
  · rw [tagged_cons] at tagged
    refine ⟨start + tagSize first, tags, behind, tagged.2, ?_, ?_⟩
    · rw [extent_cons, Nat.add_assoc]
    · intro placed member
      exact mem_cons_of_mem _ member

theorem findFit_eq_find (asize : UInt64) :
    ∃ walked : List Nat, findFit heap asize = some (walked.find? (fits heap.memory asize)) ∧
      walked.Pairwise (· < ·) ∧
      (∀ bp, bp ∈ walked → bp ∈ pointers start (first :: tags)) ∧
      ∀ bp, Available heap asize bp ↔ bp ∈ walked ∧ fits heap.memory asize bp := by
  obtain ⟨walkStart, walked, startIs, tagged, same, within⟩ := wellTagged.exists_walk
  have stops : tagSize (get heap.memory (walkStart + extent tagSize walked)) = 0 := by
    rw [same]
    exact wellTagged.epilogue
  have short : (pointers walkStart walked).length ≤ heap.heapEnd := by
    have covered := tagged.length_le_extent (by decide)
    have ends := wellTagged.ends
    rw [pointers, length_map, length_place]
    omega
  refine ⟨pointers walkStart walked, ?_, pairwise_pointers tagged, ?_, ?_⟩
  · rw [findFit, startIs, traverse_of_path _ _ (path_pointers tagged stops) short, visit_find]
  · intro bp member
    obtain ⟨placed, placedMem, rfl⟩ := mem_map.mp member
    exact mem_map.mpr ⟨placed, within placed placedMem, rfl⟩
  · intro bp
    have isBlock_iff : IsBlock heap.memory (walkStart + 8) bp ↔ _ :=
      isBlock_iff_mem_pointers tagged stops
    rw [← startIs] at isBlock_iff
    constructor
    · rintro ⟨isBlock, positive, fits⟩
      refine ⟨?_, fits⟩
      rcases isBlock_iff.mp isBlock with member | rfl
      · exact member
      · rw [getSize_pos_iff, stops] at positive
        exact absurd positive (Nat.lt_irrefl 0)
    · rintro ⟨member, fits⟩
      exact ⟨isBlock_iff.mpr (.inl member), getSize_pos_of_mem tagged member, fits⟩

theorem findFit_of_firstFit (firstFit : FirstFit heap asize bp) :
    findFit heap asize = some (some bp) ∧ bp ∈ pointers start (first :: tags) := by
  obtain ⟨walked, searched, ordered, within, available⟩ := wellTagged.findFit_eq_find asize
  obtain ⟨member, fits⟩ := (available bp).mp firstFit.available
  refine ⟨?_, within bp member⟩
  obtain ⟨before, after, rfl⟩ := append_of_mem member
  rw [searched, Option.some.injEq, find?_eq_some_iff_append]
  refine ⟨fits, before, after, rfl, fun earlier earlierMem => ?_⟩
  have earlierLt : earlier < bp :=
    (pairwise_append.mp ordered).2.2 earlier earlierMem bp mem_cons_self
  have unavailable := firstFit.first earlier earlierLt
  rw [available] at unavailable
  simpa [earlierMem] using unavailable

theorem findFit_of_noFit (noFit : NoFit heap asize) : findFit heap asize = some none := by
  obtain ⟨walked, searched, -, -, available⟩ := wellTagged.findFit_eq_find asize
  rw [searched, Option.some.injEq, find?_eq_none]
  intro bp member fits
  exact noFit bp ((available bp).mpr ⟨member, fits⟩)

theorem eq_of_address {placed other : Nat × UInt32}
    (member : placed ∈ place tagSize (start + tagSize first) tags)
    (otherMem : other ∈ place tagSize (start + tagSize first) tags)
    (same : placed.1 = other.1) : placed = other := by
  have tagged := (tagged_cons.mp wellTagged.tagged).2
  have roomy := (tagged placed member).roomy
  have otherRoomy := (tagged other otherMem).roomy
  simp only [sizeTSize] at roomy otherRoomy
  rcases eq_or_disjoint_of_mem_place member otherMem with equal | before | after
  · exact equal
  · omega
  · omega

theorem replace {before group after : List UInt32} {tag : UInt32}
    (splits : tags = before ++ group ++ after) (covers : extent tagSize group = tagSize tag)
    (retagged : Retagged heap.memory memory (start + tagSize first + extent tagSize before) tag) :
    WellTagged { heap with memory := memory } start first (before ++ tag :: after) := by
  subst splits
  have total : extent tagSize (first :: (before ++ tag :: after)) =
      extent tagSize (first :: (before ++ group ++ after)) := by
    simp only [extent_cons, extent_append, covers]
    omega
  have replaced : Tagged tagSize sizeTSize (get memory) start
      ((first :: before) ++ tag :: after) := by
    apply wellTagged.tagged.replace covers
    rw [extent_cons, ← Nat.add_assoc]
    exact retagged
  refine ⟨replaced, wellTagged.prologue, ?_, wellTagged.begins, ?_⟩
  · have kept : get memory (start + extent tagSize (first ::
        (before ++ group ++ after))) = get heap.memory (start +
          extent tagSize (first :: (before ++ group ++ after))) := by
      apply retagged.elsewhere
      right
      simp only [extent_cons, extent_append, covers]
      omega
    rw [total]
    rw [kept]
    exact wellTagged.epilogue
  · rw [total]
    exact wellTagged.ends

end WellTagged

end BitsAndBytes.Allocator
