import BitsAndBytes.BufferManagerCrowded
import BitsAndBytes.SlotContents

/-! # The occupied slots of the page table -/

namespace BitsAndBytes.BufferManager

open LinearProbing OperationRuns SlotContents Function List Option

variable {pool next : Pool} {frame slot victim : Nat}

def storedPages (pool : Pool) : Multiset Int :=
  contents pageTableSize (storedPage pool.pageTable)

def loadedPage (pool : Pool) (frame : Nat) : Option Int :=
  if frame ∈ pool.freeList then none else some (pool.bufferPool frame).pageId

def loadedPages (pool : Pool) : Multiset Int :=
  contents bufferPoolSize (loadedPage pool)

/-- The page table stores, with repetitions, the pages of the frames in use. -/
structure Balanced (pool : Pool) : Prop where
  pages : storedPages pool = loadedPages pool
  loaded_nonneg : ∀ frame < bufferPoolSize, frame ∉ pool.freeList →
    0 ≤ (pool.bufferPool frame).pageId
  free_nodup : pool.freeList.Nodup
  free_lt : ∀ frame ∈ pool.freeList, frame < bufferPoolSize
  hand_lt : pool.clockHand < bufferPoolSize

theorem loadedPage_of_free (free : frame ∈ pool.freeList) :
    loadedPage pool frame = none := if_pos free

theorem loadedPage_of_loaded (loaded : frame ∉ pool.freeList) :
    loadedPage pool frame = some (pool.bufferPool frame).pageId := if_neg loaded

theorem loadedPages_congr {other : Pool} (free : other.freeList = pool.freeList)
    (pages : ∀ frame, (other.bufferPool frame).pageId = (pool.bufferPool frame).pageId) :
    loadedPages other = loadedPages pool := by
  have same : loadedPage other = loadedPage pool := by
    funext frame
    rw [loadedPage, loadedPage, free, pages]
  rw [loadedPages, loadedPages, same]

theorem storedPages_fill (slotLt : slot < pageTableSize)
    (isEmpty : storedPage pool.pageTable slot = none) (frame page : Nat) :
    storedPages (pool.withPage frame slot page) = (page : Int) ::ₘ storedPages pool := by
  rw [storedPages, Pool.withPage, storedPage_fill, contents_fill slotLt isEmpty, storedPages]

theorem cons_storedPages_clear {pageId : Int} (slotLt : slot < pageTableSize)
    (stored : storedPage pool.pageTable slot = some pageId) :
    pageId ::ₘ storedPages (pool.withoutEntry slot) = storedPages pool := by
  rw [storedPages, Pool.withoutEntry, storedPage_clear, cons_contents_clear slotLt stored,
    storedPages]

theorem balanced_initBufferPool : Balanced (initBufferPool zeroedPool) := by
  have free : ∀ frame, frame ∈ (initBufferPool zeroedPool).freeList ↔ frame < bufferPoolSize := by
    intro frame
    simp [freeList_initBufferPool]
  constructor
  · have noneStored : storedPages (initBufferPool zeroedPool) = 0 := contents_vacant fun _ _ => rfl
    have noneLoaded : loadedPages (initBufferPool zeroedPool) = 0 :=
      contents_vacant fun frame frameLt => loadedPage_of_free ((free frame).mpr frameLt)
    rw [noneStored, noneLoaded]
  · intro frame frameLt loaded
    exact absurd ((free frame).mpr frameLt) loaded
  · rw [freeList_initBufferPool, nodup_reverse]
    exact nodup_range
  · intro frame isFree
    exact (free frame).mp isFree
  · show 0 < bufferPoolSize
    decide

namespace Balanced

variable (balanced : Balanced pool)
include balanced

theorem of_same_pages {other : Pool} (table : other.pageTable = pool.pageTable)
    (pages : ∀ frame, (other.bufferPool frame).pageId = (pool.bufferPool frame).pageId)
    (free : other.freeList = pool.freeList) (hand : other.clockHand < bufferPoolSize) :
    Balanced other := by
  constructor
  · rw [loadedPages_congr free pages, ← balanced.pages, storedPages, table, storedPages]
  · rw [free]
    intro frame frameLt loaded
    rw [pages]
    exact balanced.loaded_nonneg frame frameLt loaded
  · rw [free]
    exact balanced.free_nodup
  · rw [free]
    exact balanced.free_lt
  · exact hand

theorem card_storedPages_le : (storedPages pool).card ≤ bufferPoolSize := by
  rw [balanced.pages]
  exact card_contents.trans_le ((length_filter_le _ _).trans_eq length_range)

theorem exists_empty_slot : ∃ slot < pageTableSize, storedPage pool.pageTable slot = none :=
  exists_empty_of_card_lt
    (lt_of_le_of_lt balanced.card_storedPages_le bufferPoolSize_lt_pageTableSize)

theorem exists_lookupPage (pageId : Int) : ∃ frameId, lookupPage pool pageId = some frameId := by
  obtain ⟨empty, emptyLt, isEmpty⟩ := balanced.exists_empty_slot
  have stops : ((pool.pageTable empty).pageId == -1 ||
      (pool.pageTable empty).pageId == pageId) := by
    simp [storedPage_eq_none.mp isEmpty]
  obtain ⟨steps, -, found, -⟩ := exists_first_of_stop
    (fun slot => (pool.pageTable slot).pageId == -1 || (pool.pageTable slot).pageId == pageId)
    (firstSlot_lt pageId) emptyLt stops
  rw [lookupPage, found]
  exact ⟨_, rfl⟩

theorem exists_slot (frameLt : frame < bufferPoolSize) (loaded : frame ∉ pool.freeList) :
    ∃ slot < pageTableSize,
      storedPage pool.pageTable slot = some (pool.bufferPool frame).pageId := by
  apply mem_contents.mp
  show _ ∈ storedPages pool
  rw [balanced.pages]
  exact mem_contents.mpr ⟨frame, frameLt, loadedPage_of_loaded loaded⟩

theorem load (page : Nat) {nodes : List Nat} (free : pool.freeList = frame :: nodes)
    (slotLt : slot < pageTableSize) (isEmpty : storedPage pool.pageTable slot = none) :
    Balanced ((pool.withFreeList nodes).withPage frame slot page) := by
  have nodup := balanced.free_nodup
  rw [free, nodup_cons] at nodup
  have isFree : frame ∈ pool.freeList := by simp [free]
  have loads : loadedPage ((pool.withFreeList nodes).withPage frame slot page) =
      update (loadedPage pool) frame (some (page : Int)) := by
    funext other
    by_cases same : other = frame
    · subst same
      rw [update_self, loadedPage_of_loaded nodup.1, pageId_withPage_self]
    · rw [update_of_ne same, loadedPage, loadedPage, free, pageId_withPage_of_ne _ _ same]
      simp only [mem_cons, same, false_or]
      rfl
  have stillEmpty : storedPage (pool.withFreeList nodes).pageTable slot = none := isEmpty
  constructor
  · rw [storedPages_fill slotLt stillEmpty, loadedPages, loads,
      contents_fill (balanced.free_lt frame isFree) (loadedPage_of_free isFree)]
    exact congrArg ((page : Int) ::ₘ ·) balanced.pages
  · intro other otherLt loaded
    by_cases same : other = frame
    · subst same
      rw [pageId_withPage_self]
      omega
    · rw [pageId_withPage_of_ne _ _ same]
      apply balanced.loaded_nonneg other otherLt
      rw [free, mem_cons, not_or]
      exact ⟨same, loaded⟩
  · exact nodup.2
  · intro other member
    exact balanced.free_lt other (by rw [free]; exact mem_cons_of_mem _ member)
  · exact balanced.hand_lt

theorem evict {page target : Nat} (noFree : pool.freeList = [])
    (victimLt : victim < bufferPoolSize) (slotLt : slot < pageTableSize)
    (stored : storedPage pool.pageTable slot = some (pool.bufferPool victim).pageId)
    (targetLt : target < pageTableSize)
    (isEmpty : storedPage (pool.withoutEntry slot).pageTable target = none) :
    Balanced ((pool.withoutEntry slot).withPage victim target page) := by
  have loaded : ∀ frame, frame ∉ pool.freeList := by simp [noFree]
  have victimPage := loadedPage_of_loaded (loaded victim)
  have loads : loadedPage ((pool.withoutEntry slot).withPage victim target page) =
      update (update (loadedPage pool) victim none) victim (some (page : Int)) := by
    rw [update_idem]
    funext other
    have stillLoaded : other ∉ ((pool.withoutEntry slot).withPage victim target page).freeList :=
      loaded other
    rw [loadedPage_of_loaded stillLoaded]
    by_cases same : other = victim
    · subst same
      rw [update_self, pageId_withPage_self]
    · rw [update_of_ne same, loadedPage_of_loaded (loaded other), pageId_withPage_of_ne _ _ same]
      rfl
  have remaining : storedPages (pool.withoutEntry slot) =
      contents bufferPoolSize (update (loadedPage pool) victim none) := by
    have both := balanced.pages
    rw [← cons_storedPages_clear slotLt stored, loadedPages,
      ← cons_contents_clear victimLt victimPage] at both
    exact (Multiset.cons_inj_right _).mp both
  constructor
  · rw [storedPages_fill targetLt isEmpty, loadedPages, loads,
      contents_fill victimLt (update_self ..), remaining]
  · intro other otherLt _
    by_cases same : other = victim
    · subst same
      rw [pageId_withPage_self]
      omega
    · rw [pageId_withPage_of_ne _ _ same]
      exact balanced.loaded_nonneg other otherLt (loaded other)
  · exact balanced.free_nodup
  · exact balanced.free_lt
  · exact balanced.hand_lt

theorem evictPage (page : Nat) (noFree : pool.freeList = [])
    (found : findVictimPage pool = some (victim, next)) :
    ∃ evicted last, removeFromPageTable next (next.bufferPool victim).pageId = some evicted ∧
        loadPage evicted victim page = some (last, victim) ∧ Balanced last := by
  obtain ⟨victimLt, -, handLt, frames, table, free⟩ := findVictimLoop_eq_some balanced.hand_lt found
  have nextBalanced : Balanced next :=
    balanced.of_same_pages table (fun frame => by rw [frames]) free handLt
  rw [noFree] at free
  obtain ⟨entry, entryLt, entryStored⟩ := nextBalanced.exists_slot victimLt (by simp [free])
  obtain ⟨slot, slotLt, stored, removed⟩ := exists_removeFromPageTable entryLt entryStored
  have isEmpty : storedPage (next.withoutEntry slot).pageTable slot = none := by
    rw [Pool.withoutEntry, storedPage_clear, update_self]
  obtain ⟨steps, -, loads, targetEmpty, -⟩ := loadPage_of_empty slotLt isEmpty victim page
  exact ⟨_, _, removed, loads, nextBalanced.evict free victimLt slotLt stored
    (Nat.mod_lt _ (by decide)) targetEmpty⟩

theorem fetchPage (page : Nat) :
    (∃ next frame, BufferManager.fetchPage pool page = some (next, frame) ∧ Balanced next) ∨
      BufferManager.fetchPage pool page = none ∧ lookupPage pool page = some (-1) ∧
        pool.freeList = [] ∧ ∀ frame < bufferPoolSize, (pool.bufferPool frame).pinCount ≠ 0 := by
  obtain ⟨frameId, lookup⟩ := balanced.exists_lookupPage page
  by_cases missing : frameId = -1
  · subst missing
    cases free : pool.freeList with
    | cons frame nodes =>
      obtain ⟨empty, emptyLt, isEmpty⟩ := balanced.exists_empty_slot
      have stillEmpty : storedPage (pool.withFreeList nodes).pageTable empty = none := isEmpty
      obtain ⟨steps, -, loads, slotEmpty, -⟩ := loadPage_of_empty emptyLt stillEmpty frame page
      refine .inl ⟨_, frame, ?_, balanced.load page free (Nat.mod_lt _ (by decide)) slotEmpty⟩
      rw [BufferManager.fetchPage, lookup, free]
      exact loads
    | nil =>
      by_cases unpinned : ∃ frame < bufferPoolSize, (pool.bufferPool frame).pinCount = 0
      · obtain ⟨⟨victim, next⟩, found⟩ := isSome_iff_exists.mp
          ((findVictimPage_isSome_iff balanced.hand_lt).mpr unpinned)
        obtain ⟨evicted, last, removed, loads, lastBalanced⟩ := balanced.evictPage page free found
        refine .inl ⟨last, victim, ?_, lastBalanced⟩
        simp only [BufferManager.fetchPage, lookup, free, found, bind_some, ne_eq,
          not_true_eq_false, if_false, removed, loads]
      · push Not at unpinned
        have notFound := (findVictimPage_eq_none_iff balanced.hand_lt).mpr unpinned
        refine .inr ⟨?_, lookup, rfl, unpinned⟩
        simp [BufferManager.fetchPage, lookup, free, notFound]
  · refine .inl ⟨hitPage pool frameId.toNat, frameId.toNat, ?_, ?_⟩
    · simp [BufferManager.fetchPage, lookup, missing]
    · have same : SamePages pool (hitPage pool frameId.toNat) := ⟨rfl, pageId_update rfl, rfl, rfl⟩
      exact balanced.of_same_pages same.table same.pages same.free balanced.hand_lt

theorem step {call : Call} {out : Option Nat} (stepEq : step pool call = some (next, out)) :
    Balanced next := by
  by_cases fetches : ∃ page, call = .fetchPage page
  · obtain ⟨page, rfl⟩ := fetches
    simp only [BufferManager.step, map_eq_some_iff, Prod.mk.injEq] at stepEq
    obtain ⟨⟨fetched, frame⟩, fetchEq, rfl, -⟩ := stepEq
    rcases balanced.fetchPage page with ⟨last, found, lastEq, lastBalanced⟩ | ⟨stuck, -⟩
    · rw [lastEq, some.injEq, Prod.mk.injEq] at fetchEq
      rwa [← fetchEq.1]
    · rw [stuck] at fetchEq
      cases fetchEq
  · have same := samePages_of_step (fun page fetched => fetches ⟨page, fetched⟩) stepEq
    exact balanced.of_same_pages same.table same.pages same.free (same.hand ▸ balanced.hand_lt)

theorem step_eq_none_iff (call : Call) : BufferManager.step pool call = none ↔
      ∃ page, call = .fetchPage page ∧ lookupPage pool page = some (-1) ∧
        pool.freeList = [] ∧ ∀ frame < bufferPoolSize, (pool.bufferPool frame).pinCount ≠ 0 := by
  cases call with
  | fetchPage page =>
    rw [BufferManager.step, map_eq_none_iff]
    rcases balanced.fetchPage page with ⟨next, frame, fetched, -⟩ | ⟨stuck, noVictim⟩
    · have returned : ¬ BufferManager.fetchPage pool page = none := by simp [fetched]
      refine ⟨fun stuck => absurd stuck returned, ?_⟩
      rintro ⟨other, same, missing, noFree, pinned⟩
      obtain rfl := Call.fetchPage.inj same
      have notFound := (findVictimPage_eq_none_iff balanced.hand_lt).mpr pinned
      simp [BufferManager.fetchPage, missing, noFree, notFound]
    · exact ⟨fun _ => ⟨page, rfl, noVictim⟩, fun _ => stuck⟩
  | unpinPage page | markPageDirty page =>
    obtain ⟨frameId, lookup⟩ := balanced.exists_lookupPage page
    simp [BufferManager.step, unpinPage, markPageDirty, lookup]
  | flushDirtyPages => simp [BufferManager.step]

theorem insertIntoPageTable_isSome (pageId frameId : Int) :
    (insertIntoPageTable pool pageId frameId).isSome := by
  obtain ⟨empty, emptyLt, isEmpty⟩ := balanced.exists_empty_slot
  have stops : ((pool.pageTable empty).pageId == -1) := by
    simpa using storedPage_eq_none.mp isEmpty
  obtain ⟨steps, -, found, -⟩ := exists_first_of_stop
    (fun slot => (pool.pageTable slot).pageId == -1) (firstSlot_lt pageId) emptyLt stops
  rw [insertIntoPageTable, found]
  rfl

end Balanced

/-- In every state of a run the page table stores exactly the pages of the loaded frames. -/
theorem page_table_stores_loaded_pages {calls : List Call} {pool : Pool}
    (reached : Reaches step (initBufferPool zeroedPool) calls pool) :
    storedPages pool = loadedPages pool ∧ ((range pageTableSize).filter fun slot =>
          (pool.pageTable slot).pageId ≠ -1).length ≤ bufferPoolSize ∧
      (∀ page : Nat, (lookupPage pool page).isSome) ∧
      (∀ page frame : Nat, (insertIntoPageTable pool page frame).isSome) ∧
      (∀ pageId ∈ loadedPages pool, (removeFromPageTable pool pageId).isSome) ∧
      ∀ call, step pool call = none ↔
        ∃ page, call = .fetchPage page ∧ lookupPage pool page = some (-1) ∧
          pool.freeList = [] ∧ ∀ frame < bufferPoolSize, (pool.bufferPool frame).pinCount ≠ 0 := by
  have balanced :=
    reached.invariant Balanced (fun balanced => balanced.step) balanced_initBufferPool
  refine ⟨balanced.pages, ?_, ?_, ?_, ?_, balanced.step_eq_none_iff⟩
  · have occupied : ∀ slot, decide ((pool.pageTable slot).pageId ≠ -1) =
        (storedPage pool.pageTable slot).isSome := by
      intro slot
      by_cases isEmpty : (pool.pageTable slot).pageId = -1 <;> simp [storedPage, isEmpty]
    simp only [occupied]
    rw [← card_contents]
    exact balanced.card_storedPages_le
  · intro page
    exact isSome_iff_exists.mpr (balanced.exists_lookupPage page)
  · intro page frame
    exact balanced.insertIntoPageTable_isSome page frame
  · intro pageId member
    rw [← balanced.pages] at member
    obtain ⟨slot, slotLt, stored⟩ := mem_contents.mp member
    obtain ⟨found, -, -, removed⟩ := exists_removeFromPageTable slotLt stored
    rw [removed]
    rfl

theorem page_table_stores_filled_pool :
    Reaches step (initBufferPool zeroedPool) ((range bufferPoolSize).map .fetchPage)
        (filled bufferPoolSize) ∧
      storedPages (filled bufferPoolSize) = loadedPages (filled bufferPoolSize) :=
  ⟨reaches_filled le_rfl, (page_table_stores_loaded_pages (reaches_filled le_rfl)).1⟩

end BitsAndBytes.BufferManager
