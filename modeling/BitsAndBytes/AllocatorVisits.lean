import BitsAndBytes.AllocatorOperations
import BitsAndBytes.RunMerging

/-! # The visits of `sweep` -/

namespace BitsAndBytes.Allocator

open BoundaryTags BlockTiling RunMerging

/-- The sweep frees the block: it is free already, or not marked. -/
def Garbage (tag : UInt32) : Prop :=
  IsFree tag ∨ tag &&& 2 = 0

instance : DecidablePred Garbage :=
  fun tag => inferInstanceAs (Decidable (IsFree tag ∨ tag &&& 2 = 0))

def unmark (tag : UInt32) : UInt32 :=
  tag &&& ~~~2

theorem tagSize_unmark (tag : UInt32) : tagSize (unmark tag) = tagSize tag := by
  rw [tagSize, unmark, UInt32.and_assoc]
  rfl

theorem isFree_unmark_iff (tag : UInt32) : IsFree (unmark tag) ↔ IsFree tag := by
  rw [IsFree, unmark, UInt32.and_assoc]
  rfl

theorem not_isFree_unmark (tag : UInt32) (kept : ¬ Garbage tag) : ¬ IsFree (unmark tag) := by
  rw [isFree_unmark_iff]
  exact fun free => kept (.inl free)

/-- A block with its header; the footer matters only if the block is kept. -/
structure Headed (memory : Nat → UInt8) (start : Nat) (tag : UInt32) : Prop where
  roomy : 16 ≤ tagSize tag
  header : get memory start = tag
  footer : ¬ Garbage tag → get memory (start + tagSize tag - 8) = tag

variable {memory : Nat → UInt8} {start : Nat} {tag : UInt32}

theorem Holds.headed (holds : Holds memory start tag) : Headed memory start tag :=
  ⟨holds.roomy, holds.header, fun _ => holds.footer⟩

section

variable {heap : Heap} {start : Nat} {tag : UInt32} (headed : Headed heap.memory start tag)
include headed

theorem sweepBlock_of_kept (kept : ¬ Garbage tag) :
    ∃ memory, sweepBlock heap (start + 8) = { heap with memory := memory } ∧
      Retagged heap.memory memory start (unmark tag) := by
  have roomy := headed.roomy
  have sizes := tagSize_unmark tag
  have word : (unmark tag).toUInt64.toUInt32 = unmark tag := UInt32.toUInt32_toUInt64 _
  have tested : ¬ (getAlloc heap.memory (hdrp (start + 8)) = 0 ∨
      getMark heap.memory (hdrp (start + 8)) = 0) := by
    rw [hdrp_add, getAlloc, getMark, headed.header]
    exact kept
  have headerReset : resetMark heap.memory (hdrp (start + 8)) =
      put heap.memory start (unmark tag).toUInt64 := by
    rw [hdrp_add, resetMark, headed.header, unmark]
  have footerAt : ftrp (put heap.memory start (unmark tag).toUInt64) (start + 8) =
      start + tagSize tag - 8 := by
    have size : (getSize (put heap.memory start (unmark tag).toUInt64)
        (hdrp (start + 8))).toNat = tagSize tag := by
      have written := get_put_self heap.memory start (unmark tag).toUInt64
      rw [word] at written
      rw [← sizes]
      exact congrArg tagSize written
    rw [ftrp, size]
    simp only [sizeTSize]
    omega
  have footerRead : get (put heap.memory start (unmark tag).toUInt64)
      (start + tagSize tag - 8) = tag := by
    rw [get_put_of_disjoint (by omega), headed.footer kept]
  refine ⟨putTags heap.memory (start + 8) (unmark tag).toUInt64, ?_, ?_⟩
  · rw [sweepBlock, if_neg tested, headerReset]
    dsimp only
    rw [resetMark, footerAt, footerRead, putTags, hdrp_add, footerAt, unmark]
  · have enough : 16 ≤ tagSize (unmark tag).toUInt64.toUInt32 := by
      rw [word, sizes]
      exact roomy
    have retagged : Retagged heap.memory _ start _ := retagged_putTags enough
    rwa [word] at retagged

theorem sweepBlock_of_garbage (garbage : Garbage tag) :
    ∃ cleared freed, IsFree freed ∧ tagSize freed = tagSize tag ∧
      Retagged heap.memory cleared start freed ∧
      sweepBlock heap (start + 8) = { heap with memory := (coalesce cleared (start + 8)).1 } := by
  have tested : getAlloc heap.memory (hdrp (start + 8)) = 0 ∨
      getMark heap.memory (hdrp (start + 8)) = 0 := by
    rw [hdrp_add, getAlloc, getMark, headed.header]
    exact garbage
  rw [sweepBlock, if_pos tested]
  exact exists_cleared_of_header headed.header headed.roomy

end

structure Cursor where
  start : Nat
  prev : UInt32
  rest : List UInt32

def Cursor.address (cursor : Cursor) : Nat :=
  cursor.start + tagSize cursor.prev

def Cursor.base (cursor : Cursor) : Nat :=
  if IsFree cursor.prev then cursor.start else cursor.address

def Cursor.pending (cursor : Cursor) : List UInt32 :=
  if IsFree cursor.prev then cursor.prev :: cursor.rest else cursor.rest

section

variable {start : Nat} {prev : UInt32} {rest : List UInt32}

theorem base_of_isFree (isFree : IsFree prev) : Cursor.base ⟨start, prev, rest⟩ = start :=
  if_pos isFree

theorem base_of_used (used : ¬ IsFree prev) :
    Cursor.base ⟨start, prev, rest⟩ = start + tagSize prev := if_neg used

theorem pending_of_isFree (isFree : IsFree prev) :
    Cursor.pending ⟨start, prev, rest⟩ = prev :: rest := if_pos isFree

theorem pending_of_used (used : ¬ IsFree prev) : Cursor.pending ⟨start, prev, rest⟩ = rest :=
  if_neg used

end

def Upcoming (memory : Nat → UInt8) (address : Nat) : List UInt32 → Prop
  | [] => True
  | tag :: rest =>
    Headed memory address tag ∧ Tagged tagSize sizeTSize (get memory) (address + tagSize tag) rest

theorem upcoming_of_tagged {address : Nat} {tags : List UInt32}
    (tagged : Tagged tagSize sizeTSize (get memory) address tags) :
    Upcoming memory address tags := by
  cases tags with
  | nil => trivial
  | cons tag rest =>
    rw [tagged_cons] at tagged
    exact ⟨Holds.headed tagged.1, tagged.2⟩

/-- The blocks on both sides of the cursor, and the epilogue. -/
structure Visiting (memory : Nat → UInt8) (epilogue : UInt32) (cursor : Cursor) : Prop where
  front : Holds memory cursor.start cursor.prev
  upcoming : Upcoming memory cursor.address cursor.rest
  ended : get memory (cursor.address + extent tagSize cursor.rest) = epilogue
  zero : tagSize epilogue = 0

/-- A visit that joins the block with the free neighbours that it has. -/
inductive Absorbs (epilogue : UInt32) : Cursor → Cursor → Prop
  | free {start : Nat} {prev tag freed : UInt32} {rest : List UInt32} (garbage : Garbage tag)
      (prevUsed : ¬ IsFree prev) (nextUsed : ∀ next ∈ rest.head?, ¬ IsFree next)
      (isFree : IsFree freed) (bytes : tagSize freed = tagSize tag) :
      Absorbs epilogue ⟨start, prev, tag :: rest⟩ ⟨start + tagSize prev, freed, rest⟩
  | next {start : Nat} {prev tag next joined : UInt32} {rest : List UInt32}
      (garbage : Garbage tag) (prevUsed : ¬ IsFree prev) (nextFree : IsFree next)
      (isFree : IsFree joined) (bytes : tagSize joined = tagSize tag + tagSize next) :
      Absorbs epilogue ⟨start, prev, tag :: next :: rest⟩
        ⟨start + tagSize prev, joined, rest⟩
  | prev {start : Nat} {prev tag joined : UInt32} {rest : List UInt32}
      (garbage : Garbage tag) (prevFree : IsFree prev)
      (nextUsed : ¬ IsFree (rest.headD epilogue)) (isFree : IsFree joined)
      (bytes : tagSize joined = tagSize prev + tagSize tag) :
      Absorbs epilogue ⟨start, prev, tag :: rest⟩ ⟨start, joined, rest⟩

/-- A visit keeps or absorbs the block, or joins three blocks and visits the last one again. -/
inductive Visits (epilogue : UInt32) : Cursor → Nat → Cursor → Prop
  | keep {start : Nat} {prev tag : UInt32} {rest : List UInt32} (kept : ¬ Garbage tag) :
      Visits epilogue ⟨start, prev, tag :: rest⟩ (start + tagSize prev)
        ⟨start + tagSize prev, unmark tag, rest⟩
  | absorb {cursor next : Cursor} (absorbs : Absorbs epilogue cursor next) :
      Visits epilogue cursor cursor.base next
  | tear {start : Nat} {prev tag next freed : UInt32} {rest : List UInt32}
      (garbage : Garbage tag) (prevFree : IsFree prev) (nextFree : IsFree next)
      (isFree : IsFree freed) (bytes : tagSize freed = tagSize tag) :
      Visits epilogue ⟨start, prev, tag :: next :: rest⟩ start
        ⟨start + tagSize prev, freed, next :: rest⟩

/-- The visit moves the loop from the cursor to `next` and writes only from `lowest` on. -/
structure Moves (heap : Heap) (memory : Nat → UInt8) (epilogue : UInt32) (cursor : Cursor)
    (lowest : Nat) (next : Cursor) : Prop where
  swept : sweepBlock heap (cursor.address + 8) = { heap with memory := memory }
  pointer : nextBlkp memory (cursor.address + 8) = next.address + 8
  visiting : Visiting ({ heap with memory := memory } : Heap).memory epilogue next
  below : ∀ address, address + 8 ≤ lowest → get memory address = get heap.memory address

theorem nextBlkp_of_header (header : get memory start = tag) :
    nextBlkp memory (start + 8) = start + tagSize tag + 8 := by
  rw [← header, Nat.add_right_comm]
  rfl

section

variable {heap : Heap} {epilogue : UInt32} {start : Nat} {prev tag : UInt32} {rest : List UInt32}

theorem visiting_of_front {other : Nat → UInt8} {behind : Nat} (front : Holds other start prev)
    (ends : start + tagSize prev = behind)
    (tagged : Tagged tagSize sizeTSize (get memory) behind rest)
    (ended : get memory (behind + extent tagSize rest) = epilogue) (zero : tagSize epilogue = 0)
    (above : ∀ address, behind ≤ address → get other address = get memory address) :
    Visiting other epilogue ⟨start, prev, rest⟩ := by
  subst ends
  refine ⟨front, upcoming_of_tagged (tagged.congr fun address lower _ => above address lower),
    ?_, zero⟩
  rw [← ended]
  exact above _ (Nat.le_add_right _ _)

variable (visiting : Visiting heap.memory epilogue ⟨start, prev, tag :: rest⟩)
include visiting

theorem Visiting.headed : Headed heap.memory (start + tagSize prev) tag := visiting.upcoming.1

theorem Visiting.behind :
    Tagged tagSize sizeTSize (get heap.memory) (start + tagSize prev + tagSize tag) rest :=
  visiting.upcoming.2

theorem Visiting.ended_behind :
    get heap.memory (start + tagSize prev + tagSize tag + extent tagSize rest) = epilogue := by
  have ended := visiting.ended
  rw [extent_cons, ← Nat.add_assoc] at ended
  exact ended

theorem Visiting.next_eq :
    get heap.memory (start + tagSize prev + tagSize tag) = rest.headD epilogue := by
  have ended := visiting.ended_behind
  have behind := visiting.behind
  cases rest with
  | nil => exact ended
  | cons next rest => exact (tagged_cons.mp behind).1.header

theorem moves_keep (kept : ¬ Garbage tag) :
    ∃ memory, Moves heap memory epilogue ⟨start, prev, tag :: rest⟩ (start + tagSize prev)
      ⟨start + tagSize prev, unmark tag, rest⟩ := by
  obtain ⟨memory, swept, retagged⟩ := sweepBlock_of_kept visiting.headed kept
  have sizes := tagSize_unmark tag
  refine ⟨memory, swept, nextBlkp_of_header retagged.carries.header,
    visiting_of_front retagged.carries (by rw [sizes]) visiting.behind
      visiting.ended_behind visiting.zero fun address above => ?_,
    fun address below => retagged.elsewhere address (.inl below)⟩
  apply retagged.elsewhere
  rw [sizes]
  exact .inr above

theorem exists_cleared (garbage : Garbage tag) :
    ∃ cleared freed, IsFree freed ∧ tagSize freed = tagSize tag ∧ Holds cleared start prev ∧
      get cleared (start + tagSize prev + tagSize freed) = rest.headD epilogue ∧
      Retagged heap.memory cleared (start + tagSize prev) freed ∧
      sweepBlock heap (start + tagSize prev + 8) =
        { heap with memory := (coalesce cleared (start + tagSize prev + 8)).1 } := by
  obtain ⟨cleared, freed, isFree, bytes, retagged, swept⟩ :=
    sweepBlock_of_garbage visiting.headed garbage
  refine ⟨cleared, freed, isFree, bytes, retagged.carries_before visiting.front, ?_, retagged,
    swept⟩
  rw [retagged.elsewhere _ (.inr (Nat.le_refl _)), bytes, visiting.next_eq]

theorem moves_of_coalesces {cleared : Nat → UInt8} {freed : UInt32} {bytes : Nat}
    {later : List UInt32} (same : tagSize freed = tagSize tag)
    (retagged : Retagged heap.memory cleared (start + tagSize prev) freed)
    (swept : sweepBlock heap (start + tagSize prev + 8) =
      { heap with memory := (coalesce cleared (start + tagSize prev + 8)).1 })
    (coalesces : CoalescesWithin cleared (start + tagSize prev + 8) (start + tagSize prev) bytes)
    (covers : tagSize tag ≤ bytes)
    (tagged : Tagged tagSize sizeTSize (get heap.memory) (start + tagSize prev + bytes) later)
    (ended : get heap.memory (start + tagSize prev + bytes + extent tagSize later) = epilogue) :
    ∃ memory joined, IsFree joined ∧ tagSize joined = bytes ∧
      Moves heap memory epilogue ⟨start, prev, tag :: rest⟩ (start + tagSize prev)
        ⟨start + tagSize prev, joined, later⟩ := by
  obtain ⟨joined, isFree, joinedBytes, joinedRetagged⟩ := coalesces.retagged
  refine ⟨_, joined, isFree, joinedBytes, swept, nextBlkp_of_header joinedRetagged.carries.header,
    visiting_of_front joinedRetagged.carries (by rw [joinedBytes]) tagged ended visiting.zero
      fun address above => ?_, fun address below => ?_⟩
  · rw [joinedRetagged.elsewhere _ (.inr (by omega)), retagged.elsewhere _ (.inr (by omega))]
  · rw [joinedRetagged.elsewhere _ (.inl below), retagged.elsewhere _ (.inl below)]

theorem moves_prev (garbage : Garbage tag) (prevFree : IsFree prev)
    (nextUsed : ¬ IsFree (rest.headD epilogue)) (small : tagSize prev + tagSize tag < 2 ^ 32) :
    ∃ memory joined, IsFree joined ∧ tagSize joined = tagSize prev + tagSize tag ∧
      Moves heap memory epilogue ⟨start, prev, tag :: rest⟩ start ⟨start, joined, rest⟩ := by
  obtain ⟨cleared, freed, -, same, prevHolds, nextIs, retagged, swept⟩ :=
    exists_cleared visiting garbage
  have roomy := visiting.headed.roomy
  have prevRoomy := prevHolds.roomy
  simp only [sizeTSize] at prevRoomy
  obtain ⟨joined, isFree, bytes, joinedRetagged⟩ := (coalesces_prev prevHolds retagged.carries
    nextIs prevFree nextUsed (by omega)).retagged
  rw [same] at bytes
  obtain ⟨size, -, written⟩ := coalesce_prev_eq prevHolds retagged.carries nextIs prevFree nextUsed
  have header : get (coalesce cleared (start + tagSize prev + 8)).1 (start + tagSize prev) =
      freed := by
    rw [written, get_put_of_disjoint (by omega), get_put_of_disjoint (by omega)]
    exact retagged.carries.header
  refine ⟨_, joined, isFree, bytes, swept, ?_,
    visiting_of_front joinedRetagged.carries (by rw [bytes, Nat.add_assoc])
      visiting.behind visiting.ended_behind visiting.zero fun address above => ?_,
    fun address below => ?_⟩
  · change nextBlkp _ (start + tagSize prev + 8) = start + tagSize joined + 8
    rw [nextBlkp_of_header header, bytes, same, Nat.add_assoc start]
  · rw [joinedRetagged.elsewhere _ (.inr (by omega)), retagged.elsewhere _ (.inr (by omega))]
  · rw [joinedRetagged.elsewhere _ (.inl below),
      retagged.elsewhere _ (.inl (by simp only [sizeTSize]; omega))]

end

theorem moves_tear {heap : Heap} {epilogue : UInt32} {prev next : UInt32} {rest : List UInt32}
    (visiting : Visiting heap.memory epilogue ⟨start, prev, tag :: next :: rest⟩)
    (garbage : Garbage tag) (prevFree : IsFree prev) (nextFree : IsFree next)
    (small : tagSize prev + tagSize tag + tagSize next < 2 ^ 32) :
    ∃ memory freed, IsFree freed ∧ tagSize freed = tagSize tag ∧
      Moves heap memory epilogue ⟨start, prev, tag :: next :: rest⟩ start
        ⟨start + tagSize prev, freed, next :: rest⟩ := by
  obtain ⟨cleared, freed, isFree, same, prevHolds, nextIs, retagged, swept⟩ :=
    exists_cleared visiting garbage
  rw [List.headD_cons] at nextIs
  have roomy := visiting.headed.roomy
  have prevRoomy := prevHolds.roomy
  obtain ⟨nextCarries, tagged⟩ := tagged_cons.mp visiting.behind
  have nextRoomy := nextCarries.roomy
  simp only [sizeTSize] at prevRoomy nextRoomy
  have nextHolds : Holds cleared (start + tagSize prev + tagSize freed) next := by
    refine ⟨nextCarries.roomy, nextIs, ?_⟩
    rw [retagged.elsewhere _ (.inr (by simp only [sizeTSize]; omega)), same]
    exact nextCarries.footer
  obtain ⟨size, -, written⟩ := coalesce_both_eq prevHolds retagged.carries nextIs nextHolds
    prevFree nextFree
  obtain ⟨joined, -, bytes, joinedRetagged⟩ := (coalesces_both prevHolds retagged.carries
    nextIs nextHolds prevFree nextFree (by omega)).retagged
  have inside : ∀ address, start + tagSize prev ≤ address →
      address + 16 ≤ start + tagSize prev + tagSize tag + tagSize next →
        get (coalesce cleared (start + tagSize prev + 8)).1 address = get cleared address := by
    intro address above below
    rw [written, get_put_of_disjoint (by omega), get_put_of_disjoint (by omega)]
  have freedFooter := retagged.carries.footer
  have freedHeader := retagged.carries.header
  simp only [sizeTSize] at freedFooter
  have behind : ∀ address, start + tagSize prev + tagSize tag + tagSize next ≤ address →
      get (coalesce cleared (start + tagSize prev + 8)).1 address = get heap.memory address := by
    intro address above
    rw [joinedRetagged.elsewhere _ (.inr (by omega)), retagged.elsewhere _ (.inr (by omega))]
  have freedHolds : Holds (coalesce cleared (start + tagSize prev + 8)).1
      (start + tagSize prev) freed := by
    refine ⟨retagged.carries.roomy, ?_, ?_⟩
    · rw [inside _ (Nat.le_refl _) (by omega), freedHeader]
    · simp only [sizeTSize]
      rw [inside _ (by omega) (by omega), freedFooter]
  have nextHeaded : Headed (coalesce cleared (start + tagSize prev + 8)).1
      (start + tagSize prev + tagSize freed) next := by
    refine ⟨nextCarries.roomy, ?_, fun kept => absurd (Or.inl nextFree) kept⟩
    rw [inside _ (by omega) (by omega), nextIs]
  have nextBehind : Tagged tagSize sizeTSize (get (coalesce cleared
      (start + tagSize prev + 8)).1) (start + tagSize prev + tagSize freed + tagSize next)
      rest := by
    rw [same]
    exact tagged.congr fun address lower _ => behind address lower
  have ended := visiting.ended_behind
  rw [← behind _ (by rw [extent_cons]; omega), ← same] at ended
  refine ⟨_, freed, isFree, same, swept, nextBlkp_of_header freedHolds.header,
    ⟨freedHolds, ⟨nextHeaded, nextBehind⟩, ended, visiting.zero⟩, fun address below => ?_⟩
  rw [joinedRetagged.elsewhere _ (.inl below),
    retagged.elsewhere _ (.inl (by simp only [sizeTSize]; omega))]

end BitsAndBytes.Allocator
