import BitsAndBytes.BufferManager

/-! # The page table of the buffer pool -/

namespace BitsAndBytes.BufferManager

open LinearProbing Function Option

variable {table : Nat → PageTableEntry} {slot frame : Nat} {pageId : Int} {pool : Pool}

def storedPage (table : Nat → PageTableEntry) (slot : Nat) : Option Int :=
  if (table slot).pageId = -1 then none else some (table slot).pageId

theorem storedPage_eq_none : storedPage table slot = none ↔ (table slot).pageId = -1 := by
  simp [storedPage]

theorem storedPage_eq_some :
    storedPage table slot = some pageId ↔ (table slot).pageId = pageId ∧ pageId ≠ -1 := by
  by_cases empty : (table slot).pageId = -1
  · simp only [storedPage, empty, if_true, reduceCtorEq, false_iff, not_and, not_not]
    exact fun same => same.symm
  · simp only [storedPage, empty, if_false, some.injEq]
    constructor
    · rintro rfl
      exact ⟨rfl, empty⟩
    · exact fun both => both.1

theorem storedPage_clear (table : Nat → PageTableEntry) (slot : Nat) :
    storedPage (update table slot ⟨-1, -1⟩) = update (storedPage table) slot none := by
  funext other
  by_cases same : other = slot
  · subst same
    simp [storedPage]
  · simp [storedPage, update_of_ne same]

theorem storedPage_fill (table : Nat → PageTableEntry) (slot page : Nat) (frameId : Int) :
    storedPage (update table slot ⟨page, frameId⟩) =
      update (storedPage table) slot (some (page : Int)) := by
  funext other
  by_cases same : other = slot
  · subst same
    have nonneg : (page : Int) ≠ -1 := by omega
    simp [storedPage, nonneg]
  · simp [storedPage, update_of_ne same]

theorem firstSlot_lt (pageId : Int) : firstSlot pageId < pageTableSize := by
  have below := Int.tmod_lt_of_pos pageId (b := pageTableSize) (by decide)
  have positive : 0 < pageTableSize := by decide
  simp only [firstSlot, hashFunction]
  omega

theorem firstSlot_natCast (page : Nat) : firstSlot page = page % pageTableSize := by
  simp only [firstSlot, hashFunction]
  rw [Int.tmod_eq_emod_of_nonneg (by omega)]
  omega

theorem bufferPoolSize_lt_pageTableSize : bufferPoolSize < pageTableSize := by
  decide

/-- Every entry names a loaded frame of its page, and every loaded frame has one entry. -/
structure Matching (pool : Pool) (loaded : Nat → Prop) : Prop where
  entry_loaded : ∀ slot < pageTableSize, ∀ pageId, storedPage pool.pageTable slot = some pageId →
      ∃ frame < bufferPoolSize, loaded frame ∧ (pool.pageTable slot).frameId = frame ∧
          (pool.bufferPool frame).pageId = pageId
  loaded_nonneg : ∀ frame < bufferPoolSize, loaded frame → 0 ≤ (pool.bufferPool frame).pageId
  loaded_stored : ∀ frame < bufferPoolSize, loaded frame → ∃ slot < pageTableSize,
      storedPage pool.pageTable slot = some (pool.bufferPool frame).pageId ∧
        (pool.pageTable slot).frameId = frame
  unique : Unique pageTableSize (storedPage pool.pageTable)

namespace Matching

variable {loaded : Nat → Prop}
variable (matching : Matching pool loaded)
include matching

theorem frame_eq_of_same_page {first second : Nat} (firstLt : first < bufferPoolSize)
    (secondLt : second < bufferPoolSize) (firstLoaded : loaded first) (secondLoaded : loaded second)
    (same : (pool.bufferPool first).pageId = (pool.bufferPool second).pageId) : first = second := by
  obtain ⟨slot, slotLt, stored, frame⟩ := matching.loaded_stored first firstLt firstLoaded
  obtain ⟨other, otherLt, otherStored, otherFrame⟩ :=
    matching.loaded_stored second secondLt secondLoaded
  rw [← same] at otherStored
  have slotEq := matching.unique slot slotLt other otherLt _ stored otherStored
  subst slotEq
  omega

theorem absent_from_table
    (absent : ∀ frame < bufferPoolSize, loaded frame → (pool.bufferPool frame).pageId ≠ pageId) :
    ∀ slot < pageTableSize, storedPage pool.pageTable slot ≠ some pageId := by
  intro slot slotLt stored
  obtain ⟨frame, frameLt, isLoaded, -, holds⟩ := matching.entry_loaded slot slotLt pageId stored
  exact absent frame frameLt isLoaded holds

theorem exists_empty_slot : ∃ slot < pageTableSize, storedPage pool.pageTable slot = none := by
  apply exists_empty (fun slot => (pool.pageTable slot).frameId.toNat)
    _ _ bufferPoolSize_lt_pageTableSize
  · intro slot slotLt occupied
    obtain ⟨pageId, stored⟩ := ne_none_iff_exists'.mp occupied
    obtain ⟨frame, frameLt, -, named, -⟩ := matching.entry_loaded slot slotLt pageId stored
    omega
  · intro first firstLt second secondLt firstOccupied secondOccupied same
    obtain ⟨pageId, stored⟩ := ne_none_iff_exists'.mp firstOccupied
    obtain ⟨otherId, otherStored⟩ := ne_none_iff_exists'.mp secondOccupied
    obtain ⟨frame, -, -, named, holds⟩ := matching.entry_loaded first firstLt pageId stored
    obtain ⟨other, -, -, otherNamed, otherHolds⟩ :=
      matching.entry_loaded second secondLt otherId otherStored
    have frameEq : frame = other := by omega
    subst frameEq
    rw [holds] at otherHolds
    subst otherHolds
    exact matching.unique first firstLt second secondLt pageId stored otherStored

theorem congr {described : Nat → Prop}
    (same : ∀ frame < bufferPoolSize, described frame ↔ loaded frame) :
    Matching pool described := by
  constructor
  · intro slot slotLt pageId stored
    obtain ⟨frame, frameLt, isLoaded, named, holds⟩ :=
      matching.entry_loaded slot slotLt pageId stored
    exact ⟨frame, frameLt, (same frame frameLt).mpr isLoaded, named, holds⟩
  · intro frame frameLt isLoaded
    exact matching.loaded_nonneg frame frameLt ((same frame frameLt).mp isLoaded)
  · intro frame frameLt isLoaded
    exact matching.loaded_stored frame frameLt ((same frame frameLt).mp isLoaded)
  · exact matching.unique

theorem of_same_pages {other : Pool} (table : other.pageTable = pool.pageTable)
    (pages : ∀ frame, (other.bufferPool frame).pageId = (pool.bufferPool frame).pageId) :
    Matching other loaded := by
  constructor
  · simp only [table, pages]
    exact matching.entry_loaded
  · simp only [pages]
    exact matching.loaded_nonneg
  · simp only [table, pages]
    exact matching.loaded_stored
  · rw [table]
    exact matching.unique

end Matching

structure SamePages (pool other : Pool) : Prop where
  table : other.pageTable = pool.pageTable
  pages : ∀ frame, (other.bufferPool frame).pageId = (pool.bufferPool frame).pageId
  free : other.freeList = pool.freeList
  hand : other.clockHand = pool.clockHand

variable {empty other : Nat}

theorem pageId_update {frames : Nat → Page} {changed : Nat} {page : Page}
    (same : page.pageId = (frames changed).pageId) (frame : Nat) :
    (update frames changed page frame).pageId = (frames frame).pageId := by
  by_cases here : frame = changed
  · subst here
    rw [update_self, same]
  · rw [update_of_ne here]

theorem samePages_of_step {next : Pool} {call : Call} {out : Option Nat}
    (noFetch : ∀ page, call ≠ .fetchPage page) (stepEq : step pool call = some (next, out)) :
    SamePages pool next := by
  cases call with
  | fetchPage page => exact absurd rfl (noFetch page)
  | unpinPage page | markPageDirty page =>
    simp only [BufferManager.step, unpinPage, markPageDirty, map_map,
      map_eq_some_iff, comp_apply, Prod.mk.injEq] at stepEq
    obtain ⟨frameId, -, rfl, -⟩ := stepEq
    split
    · exact ⟨rfl, pageId_update rfl, rfl, rfl⟩
    · exact ⟨rfl, fun _ => rfl, rfl, rfl⟩
  | flushDirtyPages =>
    obtain ⟨rfl, -⟩ := stepEq
    refine ⟨rfl, fun frame => ?_, rfl, rfl⟩
    simp only [flushDirtyPages]
    split <;> rfl

theorem lookupPage_eq_seeks (pool : Pool) (pageId : Int) : lookupPage pool pageId =
      (probe pageTableSize (seeks (storedPage pool.pageTable) pageId)
          pageTableSize (firstSlot pageId)).map fun slot =>
        if storedPage pool.pageTable slot = none then -1
        else (pool.pageTable slot).frameId := by
  have stops : (fun slot => (pool.pageTable slot).pageId == -1 ||
        (pool.pageTable slot).pageId == pageId) =
      seeks (storedPage pool.pageTable) pageId := by
    funext slot
    by_cases empty : (pool.pageTable slot).pageId = -1
    · simp [seeks, storedPage, empty]
    · simp [seeks, storedPage, empty, beq_eq_decide]
  simp only [lookupPage, stops, storedPage_eq_none]

section

variable {loaded : Nat → Prop} (matching : Matching pool loaded)
include matching

theorem lookupPage_of_loaded (chained : Chained pageTableSize firstSlot (storedPage pool.pageTable))
    (frameLt : frame < bufferPoolSize) (isLoaded : loaded frame) :
    lookupPage pool (pool.bufferPool frame).pageId = some (frame : Int) := by
  obtain ⟨slot, slotLt, stored, named⟩ := matching.loaded_stored frame frameLt isLoaded
  rw [lookupPage_eq_seeks, probe_of_stored firstSlot_lt chained matching.unique slotLt stored]
  simp [stored, named]

theorem lookupPage_of_absent
    (absent : ∀ frame < bufferPoolSize, loaded frame → (pool.bufferPool frame).pageId ≠ pageId) :
    lookupPage pool pageId = some (-1) := by
  obtain ⟨empty, emptyLt, isEmpty⟩ := matching.exists_empty_slot
  obtain ⟨slot, found, slotEmpty⟩ := probe_of_absent firstSlot_lt emptyLt isEmpty
    (matching.absent_from_table absent)
  rw [lookupPage_eq_seeks, found]
  simp [slotEmpty]

theorem lookupPage_of_crossed (slotLt : slot < pageTableSize) (emptyLt : empty < pageTableSize)
    (stored : storedPage pool.pageTable slot = some pageId)
    (isEmpty : storedPage pool.pageTable empty = none)
    (crossed : distance pageTableSize (firstSlot pageId) empty <
      distance pageTableSize (firstSlot pageId) slot) : lookupPage pool pageId = some (-1) := by
  obtain ⟨last, found, lastEmpty⟩ := probe_of_crossed firstSlot_lt
    matching.unique slotLt emptyLt stored isEmpty crossed
  rw [lookupPage_eq_seeks, found]
  simp [lastEmpty]

end

def Pool.withFreeList (pool : Pool) (nodes : List Nat) : Pool :=
  { pool with freeList := nodes }

def Pool.withoutEntry (pool : Pool) (slot : Nat) : Pool :=
  { pool with pageTable := update pool.pageTable slot ⟨-1, -1⟩ }

def Pool.withPage (pool : Pool) (frame slot : Nat) (pageId : Int) : Pool :=
  { pool with
    bufferPool := update pool.bufferPool frame ⟨pageId, false, 1⟩
    referenceBits := update pool.referenceBits frame true
    pageTable := update pool.pageTable slot ⟨pageId, frame⟩ }

section

variable (pool : Pool) (frame slot : Nat) (pageId : Int)

theorem pageId_withPage_self :
    ((pool.withPage frame slot pageId).bufferPool frame).pageId = pageId := by
  simp [Pool.withPage]

theorem storedPage_withPage_self (page : Nat) :
    storedPage (pool.withPage frame slot page).pageTable slot = some (page : Int) := by
  rw [Pool.withPage, storedPage_fill, update_self]

variable {frame slot}

theorem pageId_withPage_of_ne (different : other ≠ frame) :
    ((pool.withPage frame slot pageId).bufferPool other).pageId =
      (pool.bufferPool other).pageId := by
  simp [Pool.withPage, update_of_ne different]

theorem storedPage_withPage_of_ne (page : Nat) (different : other ≠ slot) :
    storedPage (pool.withPage frame slot page).pageTable other =
      storedPage pool.pageTable other := by
  rw [Pool.withPage, storedPage_fill, update_of_ne different]

end

theorem loadPage_of_empty (emptyLt : empty < pageTableSize)
    (isEmpty : storedPage pool.pageTable empty = none) (frame page : Nat) :
    ∃ steps < pageTableSize, loadPage pool frame page = some (pool.withPage frame
          ((firstSlot page + steps) % pageTableSize) page, frame) ∧
        storedPage pool.pageTable
            ((firstSlot page + steps) % pageTableSize) = none ∧
          ∀ passed < steps, storedPage pool.pageTable
            ((firstSlot page + passed) % pageTableSize) ≠ none := by
  have stops : ((pool.pageTable empty).pageId == -1) := by
    simpa using storedPage_eq_none.mp isEmpty
  obtain ⟨steps, atMost, found, first, earlier⟩ :=
    exists_first_of_stop (fun slot => (pool.pageTable slot).pageId == -1)
      (firstSlot_lt page) emptyLt stops
  refine ⟨steps, ?_, ?_, ?_, ?_⟩
  · exact lt_of_le_of_lt atMost (distance_lt (by decide))
  · rw [loadPage, insertIntoPageTable, found]
    rfl
  · exact storedPage_eq_none.mpr (by simpa using first)
  · intro passed passedLt isNone
    have occupied := earlier passed passedLt
    simp [storedPage_eq_none.mp isNone] at occupied

theorem exists_removeFromPageTable (slotLt : slot < pageTableSize)
    (stored : storedPage pool.pageTable slot = some pageId) :
    ∃ found < pageTableSize, storedPage pool.pageTable found = some pageId ∧
      removeFromPageTable pool pageId = some (pool.withoutEntry found) := by
  have stops : ((pool.pageTable slot).pageId == pageId) := by
    simpa using (storedPage_eq_some.mp stored).1
  obtain ⟨steps, -, found, first, -⟩ :=
    exists_first_of_stop (fun slot => (pool.pageTable slot).pageId == pageId)
      (firstSlot_lt pageId) slotLt stops
  refine ⟨(firstSlot pageId + steps) % pageTableSize, Nat.mod_lt _ (by decide), ?_, ?_⟩
  · exact storedPage_eq_some.mpr ⟨by simpa using first, (storedPage_eq_some.mp stored).2⟩
  · rw [removeFromPageTable, found]
    rfl

section

variable {loaded : Nat → Prop} (matching : Matching pool loaded)
include matching

theorem removeFromPageTable_of_stored (slotLt : slot < pageTableSize)
    (stored : storedPage pool.pageTable slot = some pageId) :
    removeFromPageTable pool pageId = some (pool.withoutEntry slot) := by
  obtain ⟨found, foundLt, foundStored, removed⟩ := exists_removeFromPageTable slotLt stored
  have same := matching.unique found foundLt slot slotLt pageId foundStored stored
  rw [removed, same]

theorem Matching.withoutEntry {victim : Nat} (victimLt : victim < bufferPoolSize)
    (victimLoaded : loaded victim) (slotLt : slot < pageTableSize)
    (stored : storedPage pool.pageTable slot = some (pool.bufferPool victim).pageId) :
    Matching (pool.withoutEntry slot) fun frame => loaded frame ∧ frame ≠ victim := by
  have remaining : ∀ other pageId,
      storedPage (pool.withoutEntry slot).pageTable other = some pageId →
        other ≠ slot ∧ storedPage pool.pageTable other = some pageId := by
    intro other pageId otherStored
    rw [Pool.withoutEntry, storedPage_clear] at otherStored
    by_cases same : other = slot
    · subst same
      simp at otherStored
    · rw [update_of_ne same] at otherStored
      exact ⟨same, otherStored⟩
  constructor
  · intro other otherLt pageId otherStored
    obtain ⟨different, before⟩ := remaining other pageId otherStored
    obtain ⟨frame, frameLt, isLoaded, named, holds⟩ :=
      matching.entry_loaded other otherLt pageId before
    refine ⟨frame, frameLt, ⟨isLoaded, ?_⟩, ?_, holds⟩
    · rintro rfl
      rw [← holds] at before
      exact different (matching.unique other otherLt slot slotLt _ before stored)
    · simpa [Pool.withoutEntry, update_of_ne different] using named
  · intro frame frameLt isLoaded
    exact matching.loaded_nonneg frame frameLt isLoaded.1
  · intro frame frameLt isLoaded
    obtain ⟨other, otherLt, otherStored, named⟩ := matching.loaded_stored frame frameLt isLoaded.1
    have different : other ≠ slot := by
      rintro rfl
      rw [stored, some.injEq] at otherStored
      exact isLoaded.2 (matching.frame_eq_of_same_page victimLt frameLt
        victimLoaded isLoaded.1 otherStored).symm
    refine ⟨other, otherLt, ?_, ?_⟩
    · rw [Pool.withoutEntry, storedPage_clear, update_of_ne different]
      exact otherStored
    · simpa [Pool.withoutEntry, update_of_ne different] using named
  · intro first firstLt second secondLt pageId firstStored secondStored
    exact matching.unique first firstLt second secondLt pageId
      (remaining first pageId firstStored).2 (remaining second pageId secondStored).2

theorem Matching.withPage {page : Nat} (frameLt : frame < bufferPoolSize)
    (notLoaded : ¬ loaded frame)
    (absent : ∀ frame < bufferPoolSize, loaded frame → (pool.bufferPool frame).pageId ≠ page)
    (slotLt : slot < pageTableSize) (isEmpty : storedPage pool.pageTable slot = none) :
    Matching (pool.withPage frame slot page) fun other => loaded other ∨ other = frame := by
  have absentElsewhere := matching.absent_from_table absent
  have frame_ne : ∀ {other}, loaded other → other ≠ frame := by
    rintro other isLoaded rfl
    exact notLoaded isLoaded
  constructor
  · intro other otherLt pageId otherStored
    by_cases same : other = slot
    · subst same
      rw [storedPage_withPage_self, some.injEq] at otherStored
      refine ⟨frame, frameLt, .inr rfl, ?_, ?_⟩
      · simp [Pool.withPage]
      · rw [pageId_withPage_self, otherStored]
    · rw [storedPage_withPage_of_ne pool page same] at otherStored
      obtain ⟨named, namedLt, isLoaded, namedEq, holds⟩ :=
        matching.entry_loaded other otherLt pageId otherStored
      refine ⟨named, namedLt, .inl isLoaded, ?_, ?_⟩
      · simpa [Pool.withPage, update_of_ne same] using namedEq
      · rw [pageId_withPage_of_ne pool page (frame_ne isLoaded), holds]
  · rintro other otherLt (isLoaded | rfl)
    · rw [pageId_withPage_of_ne pool page (frame_ne isLoaded)]
      exact matching.loaded_nonneg other otherLt isLoaded
    · rw [pageId_withPage_self]
      omega
  · rintro other otherLt (isLoaded | rfl)
    · obtain ⟨found, foundLt, stored, named⟩ := matching.loaded_stored other otherLt isLoaded
      have different : found ≠ slot := by
        rintro rfl
        rw [isEmpty] at stored
        cases stored
      refine ⟨found, foundLt, ?_, ?_⟩
      · rw [storedPage_withPage_of_ne pool page different,
          pageId_withPage_of_ne pool page (frame_ne isLoaded), stored]
      · simpa [Pool.withPage, update_of_ne different] using named
    · refine ⟨slot, slotLt, ?_, ?_⟩
      · rw [storedPage_withPage_self, pageId_withPage_self]
      · simp [Pool.withPage]
  · intro first firstLt second secondLt pageId firstStored secondStored
    by_cases firstHere : first = slot
    · by_cases secondHere : second = slot
      · rw [firstHere, secondHere]
      · subst firstHere
        rw [storedPage_withPage_self] at firstStored
        rw [storedPage_withPage_of_ne pool page secondHere, ← firstStored] at secondStored
        exact absurd secondStored (absentElsewhere second secondLt)
    · rw [storedPage_withPage_of_ne pool page firstHere] at firstStored
      by_cases secondHere : second = slot
      · subst secondHere
        rw [storedPage_withPage_self] at secondStored
        rw [← secondStored] at firstStored
        exact absurd firstStored (absentElsewhere first firstLt)
      · rw [storedPage_withPage_of_ne pool page secondHere] at secondStored
        exact matching.unique first firstLt second secondLt pageId firstStored secondStored

end

section

variable (pool : Pool) (pageId : Int) (steps : Nat) (stepsLt : steps < pageTableSize)
include stepsLt

theorem lookupPage_of_steps
    (stops : (pool.pageTable ((firstSlot pageId + steps) % pageTableSize)).pageId = -1 ∨
      (pool.pageTable ((firstSlot pageId + steps) % pageTableSize)).pageId = pageId)
    (passes : ∀ passed < steps,
      (pool.pageTable ((firstSlot pageId + passed) % pageTableSize)).pageId ≠ -1 ∧
        (pool.pageTable ((firstSlot pageId + passed) % pageTableSize)).pageId ≠ pageId) :
    lookupPage pool pageId = some
      (if (pool.pageTable ((firstSlot pageId + steps) % pageTableSize)).pageId = -1
        then -1
        else (pool.pageTable ((firstSlot pageId + steps) % pageTableSize)).frameId) := by
  rw [lookupPage, probe_eq_of_first (firstSlot_lt pageId) stepsLt]
  · rfl
  · simpa using stops
  · intro passed passedLt
    simpa using passes passed passedLt

theorem loadPage_of_steps (frame : Nat)
    (stops : (pool.pageTable ((firstSlot pageId + steps) % pageTableSize)).pageId = -1)
    (passes : ∀ passed < steps,
      (pool.pageTable ((firstSlot pageId + passed) % pageTableSize)).pageId ≠ -1) :
    loadPage pool frame pageId = some (pool.withPage frame
      ((firstSlot pageId + steps) % pageTableSize) pageId, frame) := by
  rw [loadPage, insertIntoPageTable, probe_eq_of_first (firstSlot_lt pageId) stepsLt]
  · rfl
  · simpa using stops
  · intro passed passedLt
    simpa using passes passed passedLt

end

end BitsAndBytes.BufferManager
