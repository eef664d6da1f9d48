import BitsAndBytes.AllocatorTags
import BitsAndBytes.DepthFirstMarking

/-! # `mark` of `allocator.c` -/

namespace BitsAndBytes.Allocator

open BoundaryTags BlockTiling DepthFirstMarking Function List Option ByteMemory

def setMark (memory : Nat → UInt8) (p : Nat) : Nat → UInt8 :=
  put memory p (get memory p ||| 2).toUInt64

def isPtrLoop (heap : Heap) (p : Nat) : Nat → Nat → Option (Option Nat)
  | 0, _ => none
  | bound + 1, block =>
    if block < heap.heapEnd then
      let size := (getSize heap.memory (hdrp block)).toNat
      let nextBlock := block + size
      if block ≤ p ∧ p < nextBlock then
        some (some block)
      else
        isPtrLoop heap p bound nextBlock
    else
      some none

def isPtr (heap : Heap) (p : Nat) : Option (Option Nat) :=
  if p < heap.heapStart ∨ heap.heapEnd ≤ p then
    some none
  else
    isPtrLoop heap p (heap.heapEnd + 1) heap.heapStart

def scan (markChild : Heap → Nat → Option Heap) (block : Nat) : Nat → Nat → Heap → Option Heap
  | 0, _, _ => none
  | bound + 1, p, heap =>
    if p < nextBlkp heap.memory block then
      let child := load heap.memory 8 p
      (if child ≠ 0 then markChild heap child else some heap).bind fun heap =>
        scan markChild block bound (p + 8) heap
    else
      some heap

/-- `mark`, with less than `depth` calls inside each other. -/
def mark : Nat → Heap → Nat → Option Heap
  | 0, _, _ => none
  | depth + 1, heap, ptr =>
    (isPtr heap ptr).bind fun
      | none => some heap
      | some block =>
        if getMark heap.memory (hdrp block) = 0 then
          let memory := setMark heap.memory (hdrp block)
          let memory := setMark memory (ftrp memory block)
          scan (mark depth) block 4294967296 block { heap with memory := memory }
        else
          some heap

def heapBlocks (heap : Heap) (tags : List UInt32) : List (Nat × UInt32) :=
  place tagSize (heap.heapStart - 8) tags

def Contains (block : Nat × UInt32) (ptr : Nat) : Prop :=
  block.1 + 8 ≤ ptr ∧ ptr < block.1 + 8 + tagSize block.2

instance (block : Nat × UInt32) (ptr : Nat) : Decidable (Contains block ptr) :=
  inferInstanceAs (Decidable (_ ∧ _))

def pointee (heap : Heap) (tags : List UInt32) (ptr : Nat) : Option (Nat × UInt32) :=
  (heapBlocks heap tags).find? fun block => decide (Contains block ptr)

def scannedWords (memory : Nat → UInt8) (block : Nat × UInt32) : List Nat :=
  (range (tagSize block.2 / 8)).map fun i => load memory 8 (block.1 + 8 + 8 * i)

def IsTagOf (block : Nat × UInt32) (address : Nat) : Prop :=
  address = block.1 ∨ address = block.1 + tagSize block.2 - 8

instance (block : Nat × UInt32) (address : Nat) : Decidable (IsTagOf block address) :=
  inferInstanceAs (Decidable (_ ∨ _))

/-- No block is marked, and no word of a tag is an address of the heap. -/
structure Markable (heap : Heap) (tags : List UInt32) : Prop where
  positive : 0 < heap.heapStart
  aligned : heap.heapStart % 8 = 0
  tagged : Tagged tagSize sizeTSize (get heap.memory) (heap.heapStart - 8) tags
  covers : heap.heapStart + extent tagSize tags = heap.heapEnd
  unmarked : ∀ tag ∈ tags, tag &&& 2 = 0
  no_address : ∀ block ∈ heapBlocks heap tags, ∀ address, IsTagOf block address →
    load heap.memory 8 address < heap.heapStart ∨ heap.heapEnd ≤ load heap.memory 8 address

def marking (heap : Heap) (marked : Finset (Nat × UInt32)) : Heap :=
  { heap with
    memory := fun address =>
      if ∃ block ∈ marked, IsTagOf block address then heap.memory address ||| 2
      else heap.memory address }

variable (tag : UInt32) (memory : Nat → UInt8)

theorem or_two_div_eight (word : Nat) : (word ||| 2) / 8 = word / 8 := by
  have split := @Nat.or_div_two_pow word 2 3
  rwa [show 2 / 2 ^ 3 = 0 from rfl, Nat.or_zero] at split

theorem tagSize_or_two : tagSize (tag ||| 2) = tagSize tag := by
  rw [tagSize_eq, tagSize_eq, UInt32.toNat_or]
  exact congrArg (· * 8) (or_two_div_eight tag.toNat)

theorem or_two_and_two_ne_zero : (tag ||| 2) &&& 2 ≠ 0 := by
  intro zero
  have bits := congrArg UInt32.toNat zero
  rw [UInt32.toNat_and, UInt32.toNat_or, Nat.and_or_distrib_right] at bits
  exact absurd (Nat.or_eq_zero_iff.mp bits).2 (by decide)

theorem toNat_get (p : Nat) : (get memory p).toNat = load memory 4 p :=
  UInt32.toNat_ofNat_of_lt' load_lt

theorem setMark_eq (p : Nat) : setMark memory p = update memory p (memory p ||| 2) := by
  have word : (get memory p ||| 2).toUInt64.toUInt32.toNat = load memory 4 p ||| 2 := by
    rw [UInt32.toUInt32_toUInt64, UInt32.toNat_or, toNat_get]
    rfl
  rw [setMark, put, word]
  exact store_load_or 2

section

variable {heap : Heap} {tags : List UInt32} {block : Nat × UInt32} {ptr address : Nat}

theorem extent_mod_eight (tags : List UInt32) : extent tagSize tags % 8 = 0 := by
  induction tags with
  | nil => rfl
  | cons tag tags ih =>
    have aligned := tagSize_mod_eight tag
    rw [extent_cons]
    omega

theorem mem_of_pointee (points : pointee heap tags ptr = some block) :
    block ∈ heapBlocks heap tags ∧ Contains block ptr := by
  have found := find?_some points
  exact ⟨mem_of_find?_eq_some points, by simpa using found⟩

namespace Markable

variable (markable : Markable heap tags)
include markable

theorem eight_le : 8 ≤ heap.heapStart := by
  have positive := markable.positive
  have aligned := markable.aligned
  omega

section

variable (member : block ∈ heapBlocks heap tags)
include member

theorem holds : Holds heap.memory block.1 block.2 := markable.tagged block member

theorem roomy : 16 ≤ tagSize block.2 := (markable.holds member).roomy

theorem within : block.1 % 8 = 0 ∧ heap.heapStart ≤ block.1 + 8 ∧
      block.1 + 8 + tagSize block.2 ≤ heap.heapEnd := by
  have eight := markable.eight_le
  have aligned := markable.aligned
  have covers := markable.covers
  have bounds := within_of_mem_place member
  obtain ⟨before, after, -, address⟩ := exists_split_of_mem_place member
  have multiple := extent_mod_eight before
  omega

end

theorem pointee_eq_none (outside : ptr < heap.heapStart ∨ heap.heapEnd ≤ ptr) :
    pointee heap tags ptr = none := by
  rw [pointee, find?_eq_none]
  intro block member
  have bounds := markable.within member
  rw [decide_eq_true_eq, Contains]
  omega

theorem tag_mod_eight (member : block ∈ heapBlocks heap tags) (isTag : IsTagOf block address) :
    address % 8 = 0 := by
  have bounds := markable.within member
  have multiple := tagSize_mod_eight block.2
  rcases isTag with rfl | rfl
  · exact bounds.1
  · omega

theorem eq_of_isTagOf {other : Nat × UInt32} (member : block ∈ heapBlocks heap tags)
    (otherMember : other ∈ heapBlocks heap tags) (isTag : IsTagOf other block.1) :
    other = block := by
  have roomy := markable.roomy member
  have otherRoomy := markable.roomy otherMember
  rcases eq_or_disjoint_of_mem_place otherMember member with same | disjoint
  · exact same
  · rcases isTag with header | footer
    · omega
    · omega

end Markable

end

section

variable {heap : Heap} {tags : List UInt32} {block : Nat × UInt32}
  {marked : Finset (Nat × UInt32)} {p width : Nat}

theorem marking_empty (heap : Heap) : marking heap ∅ = heap := by
  simp [marking]

theorem marking_memory_or (heap : Heap) (marked : Finset (Nat × UInt32)) (address : Nat) :
    (marking heap marked).memory address ||| 2 = heap.memory address ||| 2 := by
  rw [marking]
  simp only
  split
  · rw [UInt8.or_assoc, UInt8.or_self]
  · rfl

section

variable (markable : Markable heap tags) (subset : ∀ block ∈ marked, block ∈ heapBlocks heap tags)
include markable subset

theorem marking_memory_of_mod {address : Nat} (inside : address % 8 ≠ 0) :
    (marking heap marked).memory address = heap.memory address := by
  refine if_neg ?_
  rintro ⟨block, member, isTag⟩
  exact inside (markable.tag_mod_eight (subset block member) isTag)

theorem load_marking_of_not (aligned : p % 8 = 0) (small : width ≤ 8)
    (noTag : ¬ ∃ block ∈ marked, IsTagOf block p) :
    load (marking heap marked).memory width p = load heap.memory width p := by
  apply load_congr
  intro index lower upper
  by_cases first : index = p
  · subst first
    exact if_neg noTag
  · exact marking_memory_of_mod markable subset (by omega)

theorem load_marking_of (aligned : p % 8 = 0) (small : width < 8)
    (isTag : ∃ block ∈ marked, IsTagOf block p) :
    load (marking heap marked).memory (width + 1) p = load heap.memory (width + 1) p ||| 2 := by
  have lowest : (marking heap marked).memory p = heap.memory p ||| 2 := if_pos isTag
  refine load_eq_or lowest fun index lower upper => ?_
  exact marking_memory_of_mod markable subset (by omega)

section

variable (member : block ∈ heapBlocks heap tags)
include member

theorem get_marking : get (marking heap marked).memory block.1 =
      if block ∈ marked then block.2 ||| 2 else block.2 := by
  have aligned := (markable.within member).1
  have header := (markable.holds member).header
  split
  · rename_i isMarked
    have loaded := load_marking_of markable subset aligned (by decide : 3 < 8)
      ⟨block, isMarked, .inl rfl⟩
    apply UInt32.toNat_inj.mp
    rw [toNat_get, loaded, ← toNat_get, header, UInt32.toNat_or]
    rfl
  · rename_i notMarked
    have noTag : ¬ ∃ other ∈ marked, IsTagOf other block.1 := by
      rintro ⟨other, otherMarked, isTag⟩
      rw [markable.eq_of_isTagOf member (subset other otherMarked) isTag] at otherMarked
      exact notMarked otherMarked
    have loaded := load_marking_of_not markable subset aligned (by decide : 4 ≤ 8) noTag
    rw [get, loaded]
    exact header

theorem getSize_marking :
    (getSize (marking heap marked).memory block.1).toNat = tagSize block.2 := by
  rw [getSize, get_marking markable subset member]
  split
  · exact tagSize_or_two block.2
  · rfl

theorem getMark_marking_eq_zero_iff :
    getMark (marking heap marked).memory block.1 = 0 ↔ block ∉ marked := by
  rw [getMark, get_marking markable subset member]
  split
  · rename_i isMarked
    exact iff_of_false (or_two_and_two_ne_zero block.2) (not_not_intro isMarked)
  · rename_i notMarked
    have unmarked : block.2 ∈ tags := by
      obtain ⟨before, after, rfl, -⟩ := exists_split_of_mem_place member
      simp
    exact iff_of_true (markable.unmarked block.2 unmarked) notMarked

end

theorem pointee_load_marking (aligned : p % 8 = 0) :
    pointee heap tags (load (marking heap marked).memory 8 p) =
      pointee heap tags (load heap.memory 8 p) := by
  by_cases isTag : ∃ block ∈ marked, IsTagOf block p
  · have loaded : load (marking heap marked).memory 8 p = load heap.memory 8 p ||| 2 :=
      load_marking_of markable subset aligned (by decide) isTag
    obtain ⟨block, member, isTag⟩ := isTag
    have outside := markable.no_address block (subset block member) p isTag
    have sameSlot := or_two_div_eight (load heap.memory 8 p)
    have larger : load heap.memory 8 p ≤ load heap.memory 8 p ||| 2 :=
      Nat.left_le_or
    have startAligned := markable.aligned
    rw [loaded, markable.pointee_eq_none outside, markable.pointee_eq_none (by omega)]
  · rw [load_marking_of_not markable subset aligned le_rfl isTag]

theorem isPtrLoop_marking {bound start : Nat} {rest : List UInt32} {ptr : Nat}
    (suffix : ∀ block ∈ place tagSize start rest, block ∈ heapBlocks heap tags)
    (ends : start + 8 + extent tagSize rest = heap.heapEnd) (enough : rest.length < bound) :
    isPtrLoop (marking heap marked) ptr bound (start + 8) =
      some (((place tagSize start rest).find? fun block => decide (Contains block ptr)).map
        fun block => block.1 + 8) := by
  induction rest generalizing bound start with
  | nil =>
    obtain ⟨bound, rfl⟩ := Nat.exists_eq_succ_of_ne_zero (Nat.ne_of_gt enough)
    have atEnd : ¬ start + 8 < (marking heap marked).heapEnd := by
      exact Nat.not_lt.mpr (Nat.le_of_eq ends.symm)
    rw [isPtrLoop, if_neg atEnd]
    rfl
  | cons tag rest ih =>
    obtain ⟨bound, rfl⟩ := Nat.exists_eq_succ_of_ne_zero (Nat.ne_of_gt (Nat.zero_lt_of_lt enough))
    rw [place_cons, forall_mem_cons] at suffix
    obtain ⟨member, later⟩ := suffix
    have roomy := markable.roomy member
    have size := getSize_marking markable subset member
    simp only at roomy size
    rw [extent_cons] at ends
    have goesOn : start + 8 < (marking heap marked).heapEnd := by
      change start + 8 < heap.heapEnd
      omega
    rw [isPtrLoop, if_pos goesOn, hdrp_add, size, place_cons, find?_cons]
    by_cases here : Contains (start, tag) ptr
    · rw [decide_eq_true here]
      exact if_pos here
    · rw [decide_eq_false here]
      have next := @ih bound (start + tagSize tag) later (by omega) (Nat.lt_of_succ_lt_succ enough)
      rw [Nat.add_right_comm] at next
      exact (if_neg here).trans next

theorem isPtr_marking (ptr : Nat) : isPtr (marking heap marked) ptr =
      some ((pointee heap tags ptr).map fun block => block.1 + 8) := by
  have eight := markable.eight_le
  have covers := markable.covers
  rw [isPtr]
  split
  · rename_i outside
    rw [markable.pointee_eq_none outside, map_none]
  · have few := markable.tagged.length_le_extent (by decide)
    have loop := @isPtrLoop_marking heap tags marked markable subset (heap.heapEnd + 1)
      (heap.heapStart - 8) tags ptr (fun _ member => member) (by omega) (by omega)
    rwa [Nat.sub_add_cancel eight] at loop

theorem ftrp_setMark (member : block ∈ heapBlocks heap tags) :
    ftrp (setMark (marking heap marked).memory block.1) (block.1 + 8) =
      block.1 + tagSize block.2 - 8 := by
  have size : (getSize (setMark (marking heap marked).memory block.1) block.1).toNat =
      tagSize block.2 := by
    rw [getSize, setMark, get_put_self, UInt32.toUInt32_toUInt64]
    exact (tagSize_or_two _).trans (getSize_marking markable subset member)
  rw [ftrp, hdrp_add, size]
  simp only [sizeTSize]
  omega

theorem marking_insert (member : block ∈ heapBlocks heap tags) :
    setMark (setMark (marking heap marked).memory (hdrp (block.1 + 8)))
        (ftrp (setMark (marking heap marked).memory (hdrp (block.1 + 8))) (block.1 + 8)) =
      (marking heap (insert block marked)).memory := by
  have roomy := markable.roomy member
  rw [hdrp_add, ftrp_setMark markable subset member, setMark_eq, setMark_eq]
  funext address
  by_cases isTag : IsTagOf block address
  · have both : (marking heap (insert block marked)).memory address = heap.memory address ||| 2 :=
      if_pos ⟨block, Finset.mem_insert_self block marked, isTag⟩
    rw [both]
    rcases isTag with rfl | rfl
    · rw [update_of_ne (by omega), update_self, marking_memory_or]
    · rw [update_self, update_of_ne (by omega), marking_memory_or]
  · have header : address ≠ block.1 := fun same => isTag (.inl same)
    have footer : address ≠ block.1 + tagSize block.2 - 8 := fun same => isTag (.inr same)
    rw [update_of_ne footer, update_of_ne header]
    simp only [marking, Finset.exists_mem_insert, isTag, false_or]

end

section

variable {result : Finset (Nat × UInt32)} {depth ptr : Nat}
variable (markable : Markable heap tags) (subset : ∀ block ∈ marked, block ∈ heapBlocks heap tags)
include subset

theorem subset_of_visited
    (visited : visit (pointee heap tags) (scannedWords heap.memory) depth marked ptr =
      some result) : ∀ block ∈ result, block ∈ heapBlocks heap tags := by
  have nodes : result ⊆ (heapBlocks heap tags).toFinset := by
    refine subset_of_visit (fun points => ?_) visited fun block member => ?_
    · exact mem_toFinset.mpr (mem_of_pointee points).1
    · exact mem_toFinset.mpr (subset block member)
  exact fun block member => mem_toFinset.mp (nodes member)

include markable

theorem nextBlkp_marking (member : block ∈ heapBlocks heap tags) :
    nextBlkp (marking heap marked).memory (block.1 + 8) = block.1 + 8 + tagSize block.2 := by
  exact congrArg _ (getSize_marking markable subset member)

theorem mark_word (simulates : ∀ {ptr}, visit (pointee heap tags) (scannedWords heap.memory)
      depth marked ptr = some result → mark depth (marking heap marked) ptr =
        some (marking heap result)) (aligned : p % 8 = 0)
    (visited : visit (pointee heap tags) (scannedWords heap.memory) depth marked
      (load heap.memory 8 p) = some result) :
    (if load (marking heap marked).memory 8 p ≠ 0 then
        mark depth (marking heap marked) (load (marking heap marked).memory 8 p)
      else some (marking heap marked)) = some (marking heap result) := by
  have visitedChild := (visit_congr (pointee_load_marking markable subset aligned)).trans visited
  split
  · exact simulates visitedChild
  · rename_i isNull
    rw [ne_eq, not_not] at isNull
    have nothing : pointee heap tags (load (marking heap marked).memory 8 p) = none :=
      markable.pointee_eq_none (.inl (by rw [isNull]; exact markable.positive))
    rw [eq_of_visit nothing visitedChild]

theorem scan_marking
    (simulates : ∀ {marked ptr result}, (∀ block ∈ marked, block ∈ heapBlocks heap tags) →
      visit (pointee heap tags) (scannedWords heap.memory) depth marked ptr = some result →
        mark depth (marking heap marked) ptr = some (marking heap result))
    (member : block ∈ heapBlocks heap tags) {i bound : Nat}
    (folded : ((scannedWords heap.memory block).drop i).foldlM
      (visit (pointee heap tags) (scannedWords heap.memory) depth) marked = some result)
    (within : i ≤ tagSize block.2 / 8) (enough : tagSize block.2 / 8 - i < bound) :
    scan (mark depth) (block.1 + 8) bound (block.1 + 8 + 8 * i) (marking heap marked) =
      some (marking heap result) := by
  have aligned := (markable.within member).1
  have multiple := tagSize_mod_eight block.2
  have length : (scannedWords heap.memory block).length = tagSize block.2 / 8 := by
    rw [scannedWords, length_map, length_range]
  induction bound generalizing i marked with
  | zero => omega
  | succ bound ih =>
    rw [scan, nextBlkp_marking markable subset member]
    by_cases more : i < tagSize block.2 / 8
    · have word : (scannedWords heap.memory block)[i] =
          load heap.memory 8 (block.1 + 8 + 8 * i) := by
        simp [scannedWords]
      rw [drop_eq_getElem_cons (by omega), word, foldlM_cons] at folded
      obtain ⟨middle, visited, rest⟩ := bind_eq_some_iff.mp folded
      have marks := mark_word markable subset (simulates subset) (by omega) visited
      have next := ih (subset_of_visited subset visited) rest (by omega) (by omega)
      rw [if_pos (by omega)]
      simp only [marks, bind_some]
      exact next
    · rw [drop_eq_nil_of_le (by omega)] at folded
      cases folded
      exact if_neg (by omega)

theorem mark_marking
    (visited : visit (pointee heap tags) (scannedWords heap.memory) depth marked ptr =
      some result) : mark depth (marking heap marked) ptr = some (marking heap result) := by
  induction depth generalizing marked ptr result with
  | zero => cases visited
  | succ depth ih =>
    rw [visit] at visited
    rw [mark, isPtr_marking markable subset, bind_some]
    cases points : pointee heap tags ptr with
    | none =>
      rw [points] at visited
      cases visited
      rfl
    | some block =>
      have member := (mem_of_pointee points).1
      have unmarked : getMark (marking heap marked).memory (hdrp (block.1 + 8)) = 0 ↔
          block ∉ marked := by
        exact getMark_marking_eq_zero_iff markable subset member
      rw [points] at visited
      simp only [map_some] at visited ⊢
      by_cases wasMarked : block ∈ marked
      · rw [if_pos wasMarked] at visited
        cases visited
        exact if_neg fun zero => unmarked.mp zero wasMarked
      · rw [if_neg wasMarked] at visited
        rw [if_pos (unmarked.mpr wasMarked)]
        have inserted := marking_insert markable subset member
        have small := tagSize_lt block.2
        have more : ∀ other ∈ insert block marked, other ∈ heapBlocks heap tags := by
          rw [Finset.forall_mem_insert]
          exact ⟨member, subset⟩
        rw [inserted]
        exact scan_marking (i := 0) markable more (fun subset visited => ih subset visited) member
          visited (Nat.zero_le _) (by omega)

theorem foldlM_mark_marking {roots : List Nat}
    (folded : roots.foldlM (visit (pointee heap tags) (scannedWords heap.memory) depth) marked =
      some result) :
    roots.foldlM (mark depth) (marking heap marked) = some (marking heap result) := by
  induction roots generalizing marked with
  | nil =>
    cases folded
    rfl
  | cons ptr roots ih =>
    obtain ⟨middle, visited, rest⟩ := bind_eq_some_iff.mp folded
    rw [foldlM_cons, mark_marking markable subset visited]
    exact ih (subset_of_visited subset visited) rest

end

end

/-- From a heap without marks, `mark` marks exactly the blocks reachable from the words. -/
theorem mark_marks_reachable_blocks {heap : Heap} {tags : List UInt32}
    (markable : Markable heap tags) (ptrs : List Nat) :
    ∃ final, (∀ depth, tags.length < depth → ptrs.foldlM (mark depth) heap = some final) ∧
      ∀ block ∈ heapBlocks heap tags, getMark final.memory (hdrp (block.1 + 8)) ≠ 0 ↔
        Reachable (pointee heap tags) (scannedWords heap.memory) ptrs block := by
  have inBlocks : ∀ {ptr block}, pointee heap tags ptr = some block →
      block ∈ (heapBlocks heap tags).toFinset :=
    fun points => mem_toFinset.mpr (mem_of_pointee points).1
  obtain ⟨result, returns, reachable⟩ := exists_marked inBlocks ptrs
  have count : (heapBlocks heap tags).toFinset.card ≤ tags.length := by
    have le := toFinset_card_le (heapBlocks heap tags)
    rwa [heapBlocks, length_place] at le
  have subset : ∀ block ∈ result, block ∈ heapBlocks heap tags := by
    intro block member
    cases (reachable block).mp member with
    | root _ points | child _ _ points => exact (mem_of_pointee points).1
  refine ⟨marking heap result, fun depth enough => ?_, fun block member => ?_⟩
  · have marked := foldlM_mark_marking markable (by simp)
      (returns depth (lt_of_le_of_lt count enough))
    rwa [marking_empty] at marked
  · rw [hdrp_add, ne_eq, getMark_marking_eq_zero_iff markable subset member, not_not]
    exact reachable block

def threeBlocks : Heap where
  memory := wordsAt [(56, 33), (64, 100), (80, 33), (88, 25), (96, 64), (104, 25), (112, 17),
    (120, 17)]
  heapStart := 64
  heapEnd := 136
  currentBreak := 64
  representable := by decide

theorem markable_threeBlocks : Markable threeBlocks [33, 25, 17] where
  positive := by decide
  aligned := by decide
  tagged := by
    simp only [tagged_cons, tagged_nil, and_true]
    exact ⟨⟨by decide, by decide, by decide⟩, ⟨by decide, by decide, by decide⟩,
      ⟨by decide, by decide, by decide⟩⟩
  covers := by decide
  unmarked := by
    rw [forall_mem_cons, forall_mem_cons, forall_mem_singleton]
    decide
  no_address := by
    have headers : ∀ block ∈ heapBlocks threeBlocks [33, 25, 17],
        load threeBlocks.memory 8 block.1 < 64 ∨ 136 ≤ load threeBlocks.memory 8 block.1 := by
      decide
    have footers : ∀ block ∈ heapBlocks threeBlocks [33, 25, 17],
        load threeBlocks.memory 8 (block.1 + tagSize block.2 - 8) < 64 ∨
          136 ≤ load threeBlocks.memory 8 (block.1 + tagSize block.2 - 8) := by
      decide
    rintro block member address (rfl | rfl)
    · exact headers block member
    · exact footers block member

theorem reachable_threeBlocks {node : Nat × UInt32} :
    Reachable (pointee threeBlocks [33, 25, 17]) (scannedWords threeBlocks.memory) [70] node ↔
      node ∈ [(56, 33), (88, 25)] := by
  constructor
  · intro reachable
    have closed : ∀ node ∈ [(56, 33), (88, 25)], ∀ word ∈ scannedWords threeBlocks.memory node,
        ∀ child ∈ pointee threeBlocks [33, 25, 17] word, child ∈ [(56, 33), (88, 25)] := by
      decide
    induction reachable with
    | root isRoot points =>
      have start : ∀ node ∈ pointee threeBlocks [33, 25, 17] 70, node ∈ [(56, 33), (88, 25)] := by
        decide
      cases mem_singleton.mp isRoot
      exact start _ points
    | child _ isWord points ih => exact closed _ ih _ isWord _ points
  · have first : Reachable (pointee threeBlocks [33, 25, 17]) (scannedWords threeBlocks.memory)
        [70] (56, 33) := .root (mem_singleton_self 70) (by decide)
    rw [mem_pair]
    rintro (rfl | rfl)
    · exact first
    · exact .child first (by decide : 100 ∈ _) (by decide)

theorem mark_marks_two_of_three_blocks :
    ∃ final, (∀ depth, 3 < depth → [70].foldlM (mark depth) threeBlocks = some final) ∧
      getMark final.memory 56 ≠ 0 ∧ getMark final.memory 88 ≠ 0 ∧ getMark final.memory 112 = 0 := by
  obtain ⟨final, returns, marked⟩ := mark_marks_reachable_blocks markable_threeBlocks [70]
  simp only [reachable_threeBlocks] at marked
  refine ⟨final, returns, (marked (56, 33) (by decide)).mpr (by decide),
    (marked (88, 25) (by decide)).mpr (by decide), ?_⟩
  exact not_not.mp fun isMarked => absurd ((marked (112, 17) (by decide)).mp isMarked) (by decide)

end BitsAndBytes.Allocator
