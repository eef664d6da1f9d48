import BitsAndBytes.AllocatorCoalesce

/-! # `coalesce` in a whole heap -/

namespace BitsAndBytes.Allocator

open BoundaryTags BlockTiling List

/-- The blocks lie between a prologue and an epilogue that are both allocated. -/
structure Enclosed (memory : Nat → UInt8) (start : Nat) (prologue : UInt32)
    (tags : List UInt32) : Prop where
  tagged : Tagged tagSize sizeTSize (get memory) start (prologue :: tags)
  prologue_used : ¬ IsFree prologue
  epilogue_size : tagSize (get memory (start + extent tagSize (prologue :: tags))) = 0
  epilogue_used : ¬ IsFree (get memory (start + extent tagSize (prologue :: tags)))

def freeLast (tags : List UInt32) : List UInt32 :=
  tags.getLast?.toList.filter fun tag => decide (IsFree tag)

def freeHead (tags : List UInt32) : List UInt32 :=
  tags.head?.toList.filter fun tag => decide (IsFree tag)

/-- `coalesce` makes one free block of the block and its free neighbours. -/
def JoinsNeighbours (memory : Nat → UInt8) (start : Nat) (prologue : UInt32)
    (before : List UInt32) (tag : UInt32) (after : List UInt32) : Prop :=
  ∃ left right joined, before = left ++ freeLast before ∧ after = freeHead after ++ right ∧
    IsFree joined ∧
    tagSize joined = extent tagSize (freeLast before ++ tag :: freeHead after) ∧
    (coalesce memory (start + extent tagSize (prologue :: before) + 8)).2 =
      start + extent tagSize (prologue :: left) + 8 ∧
    Enclosed (coalesce memory (start + extent tagSize (prologue :: before) + 8)).1 start
      prologue (left ++ joined :: right) ∧
    ∀ address, address < start + extent tagSize (prologue :: left) ∨
        start + extent tagSize (prologue :: left) + tagSize joined ≤ address →
      (coalesce memory (start + extent tagSize (prologue :: before) + 8)).1 address = memory address

theorem JoinsNeighbours.extent_lt {memory : Nat → UInt8} {start : Nat} {prologue tag : UInt32}
    {before after : List UInt32} (joins : JoinsNeighbours memory start prologue before tag after) :
    extent tagSize (freeLast before ++ tag :: freeHead after) < 2 ^ 32 := by
  obtain ⟨left, right, joined, -, -, -, size, -⟩ := joins
  rw [← size]
  exact tagSize_lt joined

theorem freeLast_concat (init : List UInt32) (prev : UInt32) :
    freeLast (init ++ [prev]) = if IsFree prev then [prev] else [] := by
  rw [freeLast, getLast?_concat]
  by_cases free : IsFree prev
  · simp [free]
  · simp [free]

theorem freeHead_cons (next : UInt32) (rest : List UInt32) :
    freeHead (next :: rest) = if IsFree next then [next] else [] := by
  rw [freeHead, head?_cons]
  by_cases free : IsFree next
  · simp [free]
  · simp [free]

namespace Enclosed

variable {memory : Nat → UInt8} {start : Nat} {prologue tag : UInt32}
  {before after left group right : List UInt32}

section

variable (heap : Enclosed memory start prologue (before ++ tag :: after))
include heap

theorem split : Tagged tagSize sizeTSize (get memory) start (prologue :: before) ∧
      Holds memory (start + extent tagSize (prologue :: before)) tag ∧
      Tagged tagSize sizeTSize (get memory)
        (start + extent tagSize (prologue :: before) + tagSize tag) after := by
  have tagged := heap.tagged
  rw [← cons_append, tagged_append] at tagged
  exact ⟨tagged.1, tagged_cons.mp tagged.2⟩

theorem exists_prev : ∃ prevStart prev, Holds memory prevStart prev ∧
      prevStart + tagSize prev = start + extent tagSize (prologue :: before) ∧
      ((¬ IsFree prev ∧ freeLast before = []) ∨ IsFree prev ∧ freeLast before = [prev] ∧
          ∃ init, before = init ++ [prev] ∧
            prevStart = start + extent tagSize (prologue :: init)) := by
  have tagged := heap.split.1
  rcases eq_nil_or_concat before with rfl | ⟨init, prev, concat⟩
  · refine ⟨start, prologue, (tagged_cons.mp tagged).1, by simp, .inl ?_⟩
    exact ⟨heap.prologue_used, rfl⟩
  · rw [concat_eq_append] at concat
    subst concat
    rw [← cons_append, tagged_append] at tagged
    refine ⟨_, prev, (tagged_cons.mp tagged.2).1, by simp [Nat.add_assoc], ?_⟩
    rw [freeLast_concat]
    by_cases free : IsFree prev
    · exact .inr ⟨free, if_pos free, init, rfl, rfl⟩
    · exact .inl ⟨free, if_neg free⟩

theorem next_cases {next : UInt32}
    (nextIs : get memory (start + extent tagSize (prologue :: before) + tagSize tag) = next) :
    (¬ IsFree next ∧ freeHead after = []) ∨ IsFree next ∧ freeHead after = [next] ∧
        Holds memory (start + extent tagSize (prologue :: before) + tagSize tag) next ∧
          ∃ rest, after = next :: rest := by
  cases after with
  | nil =>
    have used := heap.epilogue_used
    rw [← cons_append, extent_append, extent_cons _ tag, extent_nil, Nat.add_zero,
      ← Nat.add_assoc, nextIs] at used
    exact .inl ⟨used, rfl⟩
  | cons first rest =>
    have holds := (tagged_cons.mp heap.split.2.2).1
    have same : first = next := holds.header.symm.trans nextIs
    subst same
    rw [freeHead_cons]
    by_cases free : IsFree first
    · exact .inr ⟨free, if_pos free, holds, rest, rfl⟩
    · exact .inl ⟨free, if_neg free⟩

end

theorem joins {bp : Nat} (heap : Enclosed memory start prologue (left ++ group ++ right))
    (within : CoalescesWithin memory bp (start + extent tagSize (prologue :: left))
      (extent tagSize group)) :
    ∃ joined, IsFree joined ∧ tagSize joined = extent tagSize group ∧
      (coalesce memory bp).2 = start + extent tagSize (prologue :: left) + 8 ∧
      Enclosed (coalesce memory bp).1 start prologue (left ++ joined :: right) ∧
      ∀ address, address < start + extent tagSize (prologue :: left) ∨
          start + extent tagSize (prologue :: left) + tagSize joined ≤ address →
        (coalesce memory bp).1 address = memory address := by
  obtain ⟨joined, free, size, retagged⟩ := within.retagged
  have covered : extent tagSize (prologue :: (left ++ joined :: right)) =
      extent tagSize (prologue :: (left ++ group ++ right)) := by
    simp only [extent_cons, extent_append, size]
    omega
  have epilogue : get (coalesce memory bp).1
      (start + extent tagSize (prologue :: (left ++ joined :: right))) =
        get memory (start + extent tagSize (prologue :: (left ++ group ++ right))) := by
    rw [covered]
    refine retagged.elsewhere _ (.inr ?_)
    simp only [extent_cons, extent_append, size]
    omega
  refine ⟨joined, free, size, within.pointer, ⟨?_, heap.prologue_used, ?_, ?_⟩, ?_⟩
  · have tagged := heap.tagged
    exact tagged.replace size.symm retagged
  · rw [epilogue]
    exact heap.epilogue_size
  · rw [epilogue]
    exact heap.epilogue_used
  · intro address outside
    exact within.elsewhere address (by rwa [← size])

theorem joinsNeighbours_of_within (heap : Enclosed memory start prologue (before ++ tag :: after))
    (beforeEq : before = left ++ freeLast before) (afterEq : after = freeHead after ++ right)
    (within : CoalescesWithin memory (start + extent tagSize (prologue :: before) + 8)
      (start + extent tagSize (prologue :: left))
      (extent tagSize (freeLast before ++ tag :: freeHead after))) :
    JoinsNeighbours memory start prologue before tag after := by
  have grouped : left ++ (freeLast before ++ tag :: freeHead after) ++ right =
      before ++ tag :: after := by
    calc
      left ++ (freeLast before ++ tag :: freeHead after) ++ right =
          (left ++ freeLast before) ++ tag :: (freeHead after ++ right) := by simp
      _ = before ++ tag :: after := by rw [← beforeEq, ← afterEq]
  rw [← grouped] at heap
  obtain ⟨joined, free, size, pointer, joinedHeap, elsewhere⟩ := heap.joins within
  exact ⟨left, right, joined, beforeEq, afterEq, free, size, pointer, joinedHeap, elsewhere⟩

theorem joinsNeighbours (heap : Enclosed memory start prologue (before ++ tag :: after))
    (free : IsFree tag)
    (small : extent tagSize (freeLast before ++ tag :: freeHead after) < 2 ^ 32) :
    JoinsNeighbours memory start prologue before tag after := by
  have tagHolds := heap.split.2.1
  obtain ⟨prevStart, prev, prevHolds, prevEnd, prevCases⟩ := heap.exists_prev
  obtain ⟨next, nextIs⟩ : ∃ next, get memory
      (start + extent tagSize (prologue :: before) + tagSize tag) = next := ⟨_, rfl⟩
  have nextCases := heap.next_cases nextIs
  rw [← prevEnd] at tagHolds nextIs nextCases
  rcases prevCases with ⟨prevUsed, noLast⟩ | ⟨prevFree, isLast, init, beforeEq, prevIs⟩
  · rcases nextCases with ⟨nextUsed, noHead⟩ | ⟨nextFree, isHead, -, rest, afterEq⟩
    · have within := coalesces_neither prevHolds tagHolds nextIs free prevUsed nextUsed
      refine heap.joinsNeighbours_of_within (by rw [noLast, append_nil])
        (by rw [noHead, nil_append]) ?_
      rw [prevEnd] at within
      simpa [noLast, noHead] using within
    · rw [noLast, isHead] at small
      have within := coalesces_next prevHolds tagHolds nextIs prevUsed nextFree
        (by simpa using small)
      refine heap.joinsNeighbours_of_within (by rw [noLast, append_nil])
        (by rw [isHead, afterEq, singleton_append]) ?_
      rw [prevEnd] at within
      simpa [noLast, isHead] using within
  · rcases nextCases with ⟨nextUsed, noHead⟩ | ⟨nextFree, isHead, nextHolds, rest, afterEq⟩
    · rw [isLast, noHead] at small
      have within := coalesces_prev prevHolds tagHolds nextIs prevFree nextUsed
        (by simpa using small)
      have lastEq : before = init ++ freeLast before := by rw [isLast, ← beforeEq]
      refine heap.joinsNeighbours_of_within lastEq (by rw [noHead, nil_append]) ?_
      rw [prevEnd, prevIs] at within
      simpa [isLast, noHead] using within
    · rw [isLast, isHead] at small
      have within := coalesces_both prevHolds tagHolds nextIs nextHolds prevFree nextFree
        (by simpa [Nat.add_assoc] using small)
      have lastEq : before = init ++ freeLast before := by rw [isLast, ← beforeEq]
      refine heap.joinsNeighbours_of_within lastEq
        (by rw [isHead, afterEq, singleton_append]) ?_
      rw [prevEnd, prevIs] at within
      simpa [isLast, isHead, Nat.add_assoc] using within

end Enclosed

/-- `coalesce` joins free neighbours if and only if their sizes add up to less than `2 ^ 32`. -/
theorem coalesce_joins_neighbours_iff {memory : Nat → UInt8} {start : Nat}
    {prologue tag : UInt32} {before after : List UInt32}
    (heap : Enclosed memory start prologue (before ++ tag :: after)) (free : IsFree tag) :
    JoinsNeighbours memory start prologue before tag after ↔
      extent tagSize (freeLast before ++ tag :: freeHead after) < 2 ^ 32 :=
  ⟨JoinsNeighbours.extent_lt, heap.joinsNeighbours free⟩

def twoFreeBlocks : Nat → UInt8 :=
  wordsAt [(0, 17), (8, 17), (16, 16), (24, 16), (32, 24), (48, 24), (56, 1)]

theorem enclosed_twoFreeBlocks : Enclosed twoFreeBlocks 0 17 [16, 24] := by
  refine ⟨?_, by decide, by decide, by decide⟩
  simp only [tagged_cons, tagged_nil, and_true]
  exact ⟨⟨by decide, by decide, by decide⟩, ⟨by decide, by decide, by decide⟩,
    ⟨by decide, by decide, by decide⟩⟩

theorem coalesce_joins_two_free_blocks : JoinsNeighbours twoFreeBlocks 0 17 [] 16 [24] :=
  (coalesce_joins_neighbours_iff enclosed_twoFreeBlocks (by decide)).mpr (by decide)

def twoLargeBlocks : Nat → UInt8 :=
  wordsAt [(0, 17), (8, 17), (16, 2147483648), (2147483656, 2147483648),
    (2147483664, 2147483648), (4294967304, 2147483648), (4294967312, 1)]

theorem enclosed_twoLargeBlocks : Enclosed twoLargeBlocks 0 17 [2147483648, 2147483648] := by
  refine ⟨?_, by decide, by decide, by decide⟩
  simp only [tagged_cons, tagged_nil, and_true]
  exact ⟨⟨by decide, by decide, by decide⟩, ⟨by decide, by decide, by decide⟩,
    ⟨by decide, by decide, by decide⟩⟩

theorem coalesce_two_large_blocks_fails :
    Enclosed twoLargeBlocks 0 17 ([] ++ 2147483648 :: [2147483648]) ∧ IsFree 2147483648 ∧
      ¬ JoinsNeighbours twoLargeBlocks 0 17 [] 2147483648 [2147483648] ∧
      (coalesce twoLargeBlocks 24).2 = 24 ∧
      tagSize (get (coalesce twoLargeBlocks 24).1 16) = 0 := by
  refine ⟨enclosed_twoLargeBlocks, by decide, fun joins => ?_, by decide, by decide⟩
  exact absurd joins.extent_lt (by decide)

end BitsAndBytes.Allocator
