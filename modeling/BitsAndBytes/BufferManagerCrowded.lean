import BitsAndBytes.BufferManagerClock
import BitsAndBytes.BufferManagerPageTable

/-! # Full buffer pools -/

namespace BitsAndBytes.BufferManager

open LinearProbing OperationRuns Function List Option

variable {victim slot frame page : Nat}

theorem freeList_initBufferPool :
    (initBufferPool zeroedPool).freeList = (range bufferPoolSize).reverse := by
  simp [initBufferPool, zeroedPool]

def filled (count : Nat) : Pool where
  bufferPool frame :=
    if frame < bufferPoolSize ∧ bufferPoolSize ≤ frame + count then
      ⟨(bufferPoolSize - 1 - frame : Nat), false, 1⟩
    else ⟨-1, false, 0⟩
  pageTable slot :=
    if slot < count then ⟨slot, (bufferPoolSize - 1 - slot : Nat)⟩ else ⟨-1, -1⟩
  freeList := (range (bufferPoolSize - count)).reverse
  clockHand := 0
  referenceBits frame :=
    decide (frame < bufferPoolSize ∧ bufferPoolSize ≤ frame + count)

theorem filled_zero : filled 0 = initBufferPool zeroedPool := by
  have noFrame : ∀ frame, ¬ (frame < bufferPoolSize ∧ bufferPoolSize ≤ frame + 0) := by
    intro frame
    omega
  apply Pool.ext
  · simp only [filled, noFrame, if_false]
    rfl
  · simp [filled, initBufferPool]
  · rw [freeList_initBufferPool]
    simp [filled]
  · rfl
  · simp only [filled, noFrame, decide_false]
    rfl

theorem firstSlot_filled {count : Nat} (room : count < bufferPoolSize) :
    (firstSlot count + 0) % pageTableSize = count := by
  have larger := bufferPoolSize_lt_pageTableSize
  rw [firstSlot_natCast, Nat.add_zero, Nat.mod_mod, Nat.mod_eq_of_lt (by omega)]

variable (bound : Nat)

theorem vacant_filled (count : Nat) : ((filled count).pageTable count).pageId = -1 := by
  simp [filled]

section

variable {count : Nat} (room : count < bufferPoolSize)
include room

theorem lookupPage_filled : lookupPage (filled count) count = some (-1) := by
  rw [lookupPage_of_steps _ _ 0 (by decide), firstSlot_filled room, vacant_filled, if_pos rfl]
  · rw [firstSlot_filled room]
    exact .inl (vacant_filled count)
  · intro passed passedLt
    omega

theorem freeList_filled :
    (filled count).freeList = (bufferPoolSize - 1 - count) :: (filled (count + 1)).freeList := by
  have split : bufferPoolSize - count = bufferPoolSize - 1 - count + 1 := by omega
  have rest : bufferPoolSize - (count + 1) = bufferPoolSize - 1 - count := by omega
  simp only [filled, split, rest, range_succ, reverse_append, reverse_singleton, singleton_append]

theorem filled_withPage : ((filled count).withFreeList (filled (count + 1)).freeList).withPage
      (bufferPoolSize - 1 - count) count count = filled (count + 1) := by
  have frameIff : ∀ frame, frame ≠ bufferPoolSize - 1 - count →
      (frame < bufferPoolSize ∧ bufferPoolSize ≤ frame + (count + 1) ↔
        frame < bufferPoolSize ∧ bufferPoolSize ≤ frame + count) := by
    intro frame different
    omega
  apply Pool.ext
  · funext frame
    simp only [Pool.withPage, Pool.withFreeList, filled]
    by_cases same : frame = bufferPoolSize - 1 - count
    · subst same
      rw [update_self, if_pos (by omega)]
      congr 2
      omega
    · rw [update_of_ne same]
      simp only [frameIff frame same]
  · funext slot
    simp only [Pool.withPage, Pool.withFreeList, filled]
    by_cases same : slot = count
    · subst same
      rw [update_self, if_pos (by omega)]
    · rw [update_of_ne same]
      have slotIff : slot < count + 1 ↔ slot < count := by omega
      simp only [slotIff]
  · rfl
  · rfl
  · funext frame
    simp only [Pool.withPage, Pool.withFreeList, filled]
    by_cases same : frame = bufferPoolSize - 1 - count
    · subst same
      rw [update_self, decide_eq_true (by omega)]
    · rw [update_of_ne same]
      simp only [frameIff frame same]

theorem fetchPage_filled :
    fetchPage (filled count) count = some (filled (count + 1), bufferPoolSize - 1 - count) := by
  have slotEq := firstSlot_filled room
  have loadEq := loadPage_of_steps
    ((filled count).withFreeList (filled (count + 1)).freeList) count 0
    (by decide) (bufferPoolSize - 1 - count) (by rw [slotEq]; exact vacant_filled count) (by omega)
  rw [slotEq, filled_withPage room] at loadEq
  rw [fetchPage, lookupPage_filled room]
  simp only [bind_some, ne_eq, not_true_eq_false, if_false, freeList_filled room]
  exact loadEq

end

theorem reaches_filled {count : Nat} (fits : count ≤ bufferPoolSize) :
    Reaches BufferManager.step (initBufferPool zeroedPool)
      ((range count).map Call.fetchPage) (filled count) := by
  rw [← filled_zero]
  apply reaches_range filled
  intro page pageLt
  exact ⟨_, step_fetchPage (fetchPage_filled (by omega))⟩

theorem fetchPage_of_eviction {pool next last : Pool} {pageId : Int}
    (missing : lookupPage pool pageId = some (-1)) (noFree : pool.freeList = [])
    (found : findVictimPage pool = some (victim, next))
    (removed : removeFromPageTable next (next.bufferPool victim).pageId =
      some (next.withoutEntry slot))
    (loadEq : loadPage (next.withoutEntry slot) victim pageId = some (last, victim)) :
    fetchPage pool pageId = some (last, victim) := by
  rw [fetchPage, missing]
  simp only [bind_some, ne_eq, not_true_eq_false, if_false, noFree, found, removed, loadEq]

def crowded (frames : Nat → Page) (table : Nat → PageTableEntry)
    (bits : Nat → Bool) (hand : Nat) : Pool where
  bufferPool frame :=
    if frame < 1021 then ⟨(1023 - frame : Nat), false, 1⟩ else frames frame
  pageTable slot :=
    if 3 ≤ slot ∧ slot < 1024 then ⟨slot, (1023 - slot : Nat)⟩ else table slot
  freeList := []
  clockHand := hand
  referenceBits := bits

section

variable {frames : Nat → Page} {table : Nat → PageTableEntry} {bits : Nat → Bool} {hand : Nat}

theorem crowded_bufferPool (frameGe : 1021 ≤ frame) :
    (crowded frames table bits hand).bufferPool frame = frames frame := by
  simp only [crowded]
  rw [if_neg (by omega)]

theorem update_bufferPool_crowded (frameGe : 1021 ≤ frame) (page : Page) :
    update (crowded frames table bits hand).bufferPool frame page =
      (crowded (update frames frame page) table bits hand).bufferPool := by
  funext other
  by_cases same : other = frame
  · subst same
    rw [crowded_bufferPool frameGe, update_self, update_self]
  · simp only [crowded, update_of_ne same]

theorem update_pageTable_crowded (outside : slot < 3 ∨ 1024 ≤ slot) (entry : PageTableEntry) :
    update (crowded frames table bits hand).pageTable slot entry =
      (crowded frames (update table slot entry) bits hand).pageTable := by
  funext other
  by_cases same : other = slot
  · subst same
    simp only [crowded, update_self]
    rw [if_neg (by omega)]
  · simp only [crowded, update_of_ne same]

theorem crowded_withoutEntry (outside : slot < 3 ∨ 1024 ≤ slot) :
    (crowded frames table bits hand).withoutEntry slot =
      crowded frames (update table slot ⟨-1, -1⟩) bits hand := by
  simp only [Pool.withoutEntry, update_pageTable_crowded outside]
  rfl

theorem crowded_withPage (pageId : Int) (frameGe : 1021 ≤ frame)
    (outside : slot < 3 ∨ 1024 ≤ slot) :
    (crowded frames table bits hand).withPage frame slot pageId =
      crowded (update frames frame ⟨pageId, false, 1⟩)
        (update table slot ⟨pageId, frame⟩) (update bits frame true) hand := by
  simp only [Pool.withPage, update_bufferPool_crowded frameGe, update_pageTable_crowded outside]
  rfl

theorem findVictimLoop_crowded : findVictimLoop (bound + 1021) (crowded frames table bits 0) =
      findVictimLoop bound (crowded frames table bits 1021) := by
  have handEq : (crowded frames table bits 0).clockHand = 0 := rfl
  have positive : 0 < bufferPoolSize := by decide
  rw [findVictimLoop_pass _ _ _ (by rw [handEq]; exact positive), handEq]
  · rfl
  · intro passed passedLt
    have position : (0 + passed) % bufferPoolSize = passed := by
      rw [Nat.zero_add]
      exact Nat.mod_eq_of_lt (lt_trans passedLt (by decide))
    rw [handEq, position]
    simp [crowded, passedLt]

theorem unpinPage_crowded (frame : Nat) (frameGe : 1021 ≤ frame)
    (found : lookupPage (crowded frames table bits hand) page = some (frame : Int))
    (pinned : 0 < (frames frame).pinCount) :
    unpinPage (crowded frames table bits hand) page = some (crowded (update frames frame
        { frames frame with pinCount := (frames frame).pinCount - 1 })
      table bits hand) := by
  have notMissing : (frame : Int) ≠ -1 := by omega
  rw [unpinPage, found]
  simp only [map_some, Int.toNat_natCast, crowded_bufferPool frameGe]
  rw [if_pos ⟨notMissing, pinned⟩, update_bufferPool_crowded frameGe]
  rfl

theorem crowded_pinCount (handGe : 1021 ≤ hand) :
    ((crowded frames table bits hand).bufferPool hand).pinCount = (frames hand).pinCount :=
  congrArg Page.pinCount (crowded_bufferPool handGe)

theorem pass_crowded (handGe : 1021 ≤ hand) (pinned : (frames hand).pinCount ≠ 0) :
    findVictimLoop (bound + 1) (crowded frames table bits hand) =
      findVictimLoop bound (crowded frames table bits ((hand + 1) % bufferPoolSize)) :=
  findVictimLoop_pinned bound ((crowded_pinCount handGe).trans_ne pinned)

theorem reference_crowded (handGe : 1021 ≤ hand) (unpinned : (frames hand).pinCount = 0)
    (referenced : bits hand) :
    findVictimLoop (bound + 1) (crowded frames table bits hand) =
      findVictimLoop bound (crowded frames table
        (update bits hand false) ((hand + 1) % bufferPoolSize)) :=
  findVictimLoop_referenced bound ((crowded_pinCount handGe).trans unpinned) referenced

theorem take_crowded (handGe : 1021 ≤ hand) (unpinned : (frames hand).pinCount = 0)
    (unreferenced : bits hand = false) :
    findVictimLoop (bound + 1) (crowded frames table bits hand) =
      some (hand, crowded frames table bits ((hand + 1) % bufferPoolSize)) :=
  findVictimLoop_unreferenced bound ((crowded_pinCount handGe).trans unpinned) unreferenced

theorem fetchPage_crowded {nextHand : Nat} {after : Nat → Bool} (slot target : Nat)
    (missing : lookupPage (crowded frames table bits hand) page = some (-1))
    (found : findVictimPage (crowded frames table bits hand) =
      some (victim, crowded frames table after nextHand))
    (victimGe : 1021 ≤ victim) (outside : slot < 3 ∨ 1024 ≤ slot)
    (targetOutside : target < 3 ∨ 1024 ≤ target)
    (removed : removeFromPageTable (crowded frames table after nextHand) (frames victim).pageId =
      some ((crowded frames table after nextHand).withoutEntry slot))
    (loadEq : loadPage (crowded frames (update table slot ⟨-1, -1⟩) after nextHand) victim page =
      some ((crowded frames (update table slot ⟨-1, -1⟩) after nextHand).withPage victim target
        page, victim)) :
    fetchPage (crowded frames table bits hand) page =
      some (crowded (update frames victim ⟨page, false, 1⟩)
        (update (update table slot ⟨-1, -1⟩) target
          ⟨page, victim⟩) (update after victim true) nextHand, victim) := by
  rw [crowded_withPage _ victimGe targetOutside] at loadEq
  apply fetchPage_of_eviction missing rfl found
  · rw [crowded_bufferPool victimGe]
    exact removed
  · rw [crowded_withoutEntry outside]
    exact loadEq

end

end BitsAndBytes.BufferManager
