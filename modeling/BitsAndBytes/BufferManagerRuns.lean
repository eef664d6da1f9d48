import BitsAndBytes.BufferManagerCrowded

/-! # Runs of the buffer pool -/

namespace BitsAndBytes.BufferManager

open LinearProbing OperationRuns Function List Option

variable {pool next : Pool} {page frame victim slot : Nat} {nodes : List Nat}

/-- The page table matches the frames in use, and its chains have no gap. -/
structure Coherent (pool : Pool) : Prop where
  matching : Matching pool fun frame => frame ∉ pool.freeList
  chained : Chained pageTableSize firstSlot (storedPage pool.pageTable)
  free_nodup : pool.freeList.Nodup
  free_lt : ∀ frame ∈ pool.freeList, frame < bufferPoolSize
  free_empty : ∀ frame ∈ pool.freeList, (pool.bufferPool frame).pageId = -1
  hand_lt : pool.clockHand < bufferPoolSize

/-- `lookup_page` finds exactly the pages that are in a frame. -/
structure LookupExact (pool : Pool) : Prop where
  found_iff : ∀ page : Nat, ∀ frame < bufferPoolSize, lookupPage pool page = some (frame : Int) ↔
      (pool.bufferPool frame).pageId = page
  missing_iff : ∀ page : Nat, lookupPage pool page = some (-1) ↔
      ∀ frame < bufferPoolSize, (pool.bufferPool frame).pageId ≠ page
  single : ∀ page : Nat, ∀ first < bufferPoolSize, ∀ second < bufferPoolSize,
    (pool.bufferPool first).pageId = page → (pool.bufferPool second).pageId = page → first = second

namespace Coherent

variable (coherent : Coherent pool)
include coherent

theorem notFree_of_holds (holds : (pool.bufferPool frame).pageId = page) :
    frame ∉ pool.freeList := by
  intro free
  have empty := coherent.free_empty frame free
  omega

theorem lookup_of_holds (frameLt : frame < bufferPoolSize)
    (holds : (pool.bufferPool frame).pageId = page) :
    lookupPage pool page = some (frame : Int) := by
  rw [← holds]
  exact lookupPage_of_loaded coherent.matching coherent.chained frameLt
    (coherent.notFree_of_holds holds)

theorem lookup_of_absent
    (absent : ∀ frame < bufferPoolSize, (pool.bufferPool frame).pageId ≠ page) :
    lookupPage pool page = some (-1) :=
  lookupPage_of_absent coherent.matching fun frame frameLt _ => absent frame frameLt

theorem lookupExact : LookupExact pool := by
  constructor
  · intro page frame frameLt
    constructor
    · intro found
      by_contra differs
      by_cases absent : ∀ other < bufferPoolSize, (pool.bufferPool other).pageId ≠ page
      · rw [coherent.lookup_of_absent absent, some.injEq] at found
        omega
      · push Not at absent
        obtain ⟨other, otherLt, holds⟩ := absent
        rw [coherent.lookup_of_holds otherLt holds, some.injEq] at found
        have same : other = frame := by omega
        exact differs (same ▸ holds)
    · exact coherent.lookup_of_holds frameLt
  · intro page
    constructor
    · intro missing frame frameLt holds
      rw [coherent.lookup_of_holds frameLt holds, some.injEq] at missing
      omega
    · exact coherent.lookup_of_absent
  · intro page first firstLt second secondLt firstHolds secondHolds
    apply coherent.matching.frame_eq_of_same_page firstLt secondLt
      (coherent.notFree_of_holds firstHolds) (coherent.notFree_of_holds secondHolds)
    rw [firstHolds, secondHolds]

theorem of_same_pages {other : Pool} (table : other.pageTable = pool.pageTable)
    (pages : ∀ frame, (other.bufferPool frame).pageId = (pool.bufferPool frame).pageId)
    (free : other.freeList = pool.freeList) (hand : other.clockHand < bufferPoolSize) :
    Coherent other := by
  constructor
  · rw [free]
    exact coherent.matching.of_same_pages table pages
  · rw [table]
    exact coherent.chained
  · rw [free]
    exact coherent.free_nodup
  · rw [free]
    exact coherent.free_lt
  · simp only [free, pages]
    exact coherent.free_empty
  · exact hand

end Coherent

theorem coherent_initBufferPool : Coherent (initBufferPool zeroedPool) := by
  have vacant : ∀ slot, storedPage (initBufferPool zeroedPool).pageTable slot = none := by
    intro slot
    rfl
  have allFree : ∀ frame, frame ∈ (initBufferPool zeroedPool).freeList ↔
      frame < bufferPoolSize := by
    intro frame
    simp [freeList_initBufferPool]
  constructor
  · constructor
    · intro slot _ pageId stored
      simp [vacant] at stored
    · intro frame frameLt loaded
      exact absurd ((allFree frame).mpr frameLt) loaded
    · intro frame frameLt loaded
      exact absurd ((allFree frame).mpr frameLt) loaded
    · intro first _ second _ pageId stored
      simp [vacant] at stored
  · intro slot _ pageId stored
    simp [vacant] at stored
  · rw [freeList_initBufferPool, nodup_reverse]
    exact nodup_range
  · intro frame free
    exact (allFree frame).mp free
  · intro frame _
    rfl
  · show 0 < bufferPoolSize
    decide

/-- What `fetch_page` does: a hit, a load into a free frame, or an eviction. -/
inductive FetchOutcome (pool : Pool) (page : Nat) : Pool → Nat → Prop
  | hit {frame : Nat} (frameLt : frame < bufferPoolSize)
      (holds : (pool.bufferPool frame).pageId = page) :
      FetchOutcome pool page (hitPage pool frame) frame
  | load {frame : Nat} {nodes : List Nat} {steps : Nat}
      (absent : ∀ frame < bufferPoolSize, (pool.bufferPool frame).pageId ≠ page)
      (free : pool.freeList = frame :: nodes) (stepsLt : steps < pageTableSize)
      (isEmpty : storedPage pool.pageTable ((firstSlot page + steps) % pageTableSize) = none)
      (occupied : ∀ passed < steps, storedPage pool.pageTable
        ((firstSlot page + passed) % pageTableSize) ≠ none) :
      FetchOutcome pool page ((pool.withFreeList nodes).withPage frame
        ((firstSlot page + steps) % pageTableSize) page) frame
  | evict {victim : Nat} {next : Pool} {slot steps : Nat}
      (absent : ∀ frame < bufferPoolSize, (pool.bufferPool frame).pageId ≠ page)
      (noFree : pool.freeList = [])
      (found : findVictimPage pool = some (victim, next))
      (slotLt : slot < pageTableSize)
      (stored : storedPage pool.pageTable slot = some (pool.bufferPool victim).pageId)
      (stepsLt : steps < pageTableSize)
      (isEmpty : update (storedPage pool.pageTable) slot none
        ((firstSlot page + steps) % pageTableSize) = none)
      (occupied : ∀ passed < steps, update (storedPage pool.pageTable) slot none
          ((firstSlot page + passed) % pageTableSize) ≠ none) :
      FetchOutcome pool page ((next.withoutEntry slot).withPage victim
        ((firstSlot page + steps) % pageTableSize) page) victim

section

variable (coherent : Coherent pool)
include coherent

theorem fetchPage_of_hit (frameLt : frame < bufferPoolSize)
    (holds : (pool.bufferPool frame).pageId = page) :
    fetchPage pool page = some (hitPage pool frame, frame) := by
  have notMissing : (frame : Int) ≠ -1 := by omega
  rw [fetchPage, coherent.lookup_of_holds frameLt holds]
  simp [notMissing]

theorem fetchPage_of_free (absent : ∀ frame < bufferPoolSize, (pool.bufferPool frame).pageId ≠ page)
    (free : pool.freeList = frame :: nodes) :
    ∃ next, fetchPage pool page = some (next, frame) ∧ FetchOutcome pool page next frame := by
  have matching : Matching (pool.withFreeList nodes) fun frame => frame ∉ pool.freeList :=
    coherent.matching.of_same_pages rfl fun _ => rfl
  obtain ⟨empty, emptyLt, emptySlot⟩ := matching.exists_empty_slot
  obtain ⟨steps, stepsLt, loadEq, isEmpty, occupied⟩ :=
    loadPage_of_empty emptyLt emptySlot frame page
  refine ⟨_, ?_, .load absent free stepsLt isEmpty occupied⟩
  rw [fetchPage, coherent.lookup_of_absent absent, free]
  exact loadEq

theorem fetchPage_of_victim
    (absent : ∀ frame < bufferPoolSize, (pool.bufferPool frame).pageId ≠ page)
    (noFree : pool.freeList = []) (found : findVictimPage pool = some (victim, next)) :
    ∃ last, fetchPage pool page = some (last, victim) ∧ FetchOutcome pool page last victim := by
  obtain ⟨victimLt, -, handLt, frames, table, free⟩ := findVictimLoop_eq_some coherent.hand_lt found
  have matching := coherent.matching.of_same_pages table fun frame => by rw [frames]
  have victimLoaded : victim ∉ pool.freeList := by simp [noFree]
  obtain ⟨slot, slotLt, stored, -⟩ := matching.loaded_stored victim victimLt victimLoaded
  have remaining := matching.withoutEntry victimLt victimLoaded slotLt stored
  obtain ⟨empty, emptyLt, emptySlot⟩ := remaining.exists_empty_slot
  obtain ⟨steps, stepsLt, loadEq, isEmpty, occupied⟩ :=
    loadPage_of_empty emptyLt emptySlot victim page
  rw [Pool.withoutEntry, storedPage_clear, table] at isEmpty
  simp only [Pool.withoutEntry, storedPage_clear, table] at occupied
  refine ⟨_, ?_, .evict absent noFree found slotLt ?_ stepsLt isEmpty occupied⟩
  · rw [fetchPage, coherent.lookup_of_absent absent, noFree]
    simp only [bind_some, ne_eq, not_true_eq_false, if_false, found,
      removeFromPageTable_of_stored matching slotLt stored]
    exact loadEq
  · rw [table, frames] at stored
    exact stored

theorem fetchOutcome_of_eq_some (fetched : fetchPage pool page = some (next, frame)) :
    FetchOutcome pool page next frame := by
  by_cases absent : ∀ frame < bufferPoolSize, (pool.bufferPool frame).pageId ≠ page
  · cases free : pool.freeList with
    | cons head nodes =>
      obtain ⟨last, fetchEq, outcome⟩ := fetchPage_of_free coherent absent free
      rw [fetchEq, some.injEq, Prod.mk.injEq] at fetched
      rcases fetched with ⟨rfl, rfl⟩
      exact outcome
    | nil =>
      cases found : findVictimPage pool with
      | none =>
        rw [fetchPage, coherent.lookup_of_absent absent, free] at fetched
        simp [found] at fetched
      | some victim =>
        obtain ⟨last, fetchEq, outcome⟩ := fetchPage_of_victim coherent absent free found
        rw [fetchEq, some.injEq, Prod.mk.injEq] at fetched
        rcases fetched with ⟨rfl, rfl⟩
        exact outcome
  · push Not at absent
    obtain ⟨holder, holderLt, holds⟩ := absent
    rw [fetchPage_of_hit coherent holderLt holds, some.injEq, Prod.mk.injEq] at fetched
    rcases fetched with ⟨rfl, rfl⟩
    exact .hit holderLt holds

end

/-- The eviction leaves no gap in a chain of the page table. -/
def EvictionKeepsChains (pool : Pool) (call : Call) : Prop :=
  ∀ page, call = .fetchPage page → pool.freeList = [] →
    (∀ frame < bufferPoolSize, (pool.bufferPool frame).pageId ≠ page) →
      ∀ victim next, findVictimPage pool = some (victim, next) →
        ∀ slot < pageTableSize, storedPage pool.pageTable slot =
            some (pool.bufferPool victim).pageId →
          ReplacesSafely pageTableSize firstSlot (storedPage pool.pageTable)
            slot (page : Int)

section

variable (coherent : Coherent pool)
include coherent

theorem Coherent.matching_of_load
    (absent : ∀ frame < bufferPoolSize, (pool.bufferPool frame).pageId ≠ page)
    (free : pool.freeList = frame :: nodes) (slotLt : slot < pageTableSize)
    (isEmpty : storedPage pool.pageTable slot = none) :
    Matching ((pool.withFreeList nodes).withPage frame slot page) fun frame => frame ∉ nodes := by
  have matching : Matching (pool.withFreeList nodes) fun frame => frame ∉ pool.freeList :=
    coherent.matching.of_same_pages rfl fun _ => rfl
  have nodup := coherent.free_nodup
  rw [free, nodup_cons] at nodup
  have isFree : frame ∈ pool.freeList := by simp [free]
  have loaded := matching.withPage (coherent.free_lt frame isFree)
    (fun notFree => notFree isFree) (fun frame frameLt _ => absent frame frameLt) slotLt isEmpty
  apply loaded.congr
  intro other _
  by_cases same : other = frame
  · subst same
    simp [nodup.1]
  · simp [free, same]

variable {call : Call}

theorem Coherent.matching_of_evict {target : Nat}
    (absent : ∀ frame < bufferPoolSize, (pool.bufferPool frame).pageId ≠ page)
    (noFree : pool.freeList = []) (found : findVictimPage pool = some (victim, next))
    (slotLt : slot < pageTableSize)
    (stored : storedPage pool.pageTable slot = some (pool.bufferPool victim).pageId)
    (targetLt : target < pageTableSize)
    (isEmpty : update (storedPage pool.pageTable) slot none target = none) :
    Matching ((next.withoutEntry slot).withPage victim target page) fun _ => True := by
  obtain ⟨victimLt, -, -, frames, table, -⟩ := findVictimLoop_eq_some coherent.hand_lt found
  have matching := coherent.matching.of_same_pages table fun frame => by rw [frames]
  have victimLoaded : victim ∉ pool.freeList := by simp [noFree]
  rw [← table, ← frames] at stored
  have removed := matching.withoutEntry victimLt victimLoaded slotLt stored
  have entered := removed.withPage victimLt (fun both => both.2 rfl)
    (fun frame frameLt _ => by
      show (next.bufferPool frame).pageId ≠ page
      rw [frames]
      exact absent frame frameLt)
    targetLt (by rw [Pool.withoutEntry, storedPage_clear, table]; exact isEmpty)
  apply entered.congr
  intro other _
  simp only [noFree, not_mem_nil, not_false_eq_true, true_and, true_iff]
  exact ne_or_eq other victim

theorem Coherent.fetch (safe : EvictionKeepsChains pool (.fetchPage page))
    (outcome : FetchOutcome pool page next frame) : Coherent next := by
  have slotLt : ∀ steps, (firstSlot page + steps) % pageTableSize < pageTableSize :=
    fun steps => Nat.mod_lt _ (by decide)
  cases outcome with
  | hit frameLt holds => exact coherent.of_same_pages rfl (pageId_update rfl) rfl coherent.hand_lt
  | @load _ nodes steps absent free stepsLt isEmpty occupied =>
    have nodup := coherent.free_nodup
    rw [free, nodup_cons] at nodup
    constructor
    · exact coherent.matching_of_load absent free (slotLt steps) isEmpty
    · show Chained _ _ (storedPage (update pool.pageTable _ _))
      rw [storedPage_fill]
      exact coherent.chained.insert firstSlot_lt stepsLt occupied
    · exact nodup.2
    · intro other isFree
      exact coherent.free_lt other (by rw [free]; exact .tail _ isFree)
    · intro other isFree
      have different : other ≠ frame := by
        rintro rfl
        exact nodup.1 isFree
      have empty := coherent.free_empty other (by rw [free]; exact .tail _ isFree)
      simpa [Pool.withPage, Pool.withFreeList, update_of_ne different] using empty
    · exact coherent.hand_lt
  | @evict _ middle slot steps absent noFree found slotLt' stored stepsLt isEmpty
      occupied =>
      obtain ⟨victimLt, -, handLt, frames, table, free⟩ :=
        findVictimLoop_eq_some coherent.hand_lt found
      have noneFree : middle.freeList = [] := free.trans noFree
      have noFreeLast : ∀ other, other ∉ middle.freeList := by simp [noneFree]
      constructor
      · apply (coherent.matching_of_evict absent noFree found slotLt' stored
          (slotLt steps) isEmpty).congr
        intro other _
        exact iff_of_true (noFreeLast other) trivial
      · show Chained _ _ (storedPage (update (update middle.pageTable _ _) _ _))
        rw [storedPage_fill, storedPage_clear, table]
        exact coherent.chained.replace firstSlot_lt slotLt' stepsLt isEmpty
          occupied (safe page rfl noFree absent _ middle found slot slotLt' stored)
      · show middle.freeList.Nodup
        simp [noneFree]
      · intro other isFree
        exact absurd isFree (noFreeLast other)
      · intro other isFree
        exact absurd isFree (noFreeLast other)
      · exact handLt

theorem Coherent.step {out : Option Nat} (safe : EvictionKeepsChains pool call)
    (stepEq : step pool call = some (next, out)) : Coherent next := by
  by_cases fetches : ∃ page, call = .fetchPage page
  · obtain ⟨page, rfl⟩ := fetches
    simp only [BufferManager.step, map_eq_some_iff, Prod.mk.injEq] at stepEq
    obtain ⟨⟨fetched, frame⟩, fetchEq, rfl, -⟩ := stepEq
    exact coherent.fetch safe (fetchOutcome_of_eq_some coherent fetchEq)
  · have same := samePages_of_step (fun page fetched => fetches ⟨page, fetched⟩) stepEq
    exact coherent.of_same_pages same.table same.pages same.free (same.hand ▸ coherent.hand_lt)

theorem eviction_breaks_lookup (broken : ¬ EvictionKeepsChains pool call) :
    ∃ next out, BufferManager.step pool call = some (next, out) ∧ ¬ LookupExact next := by
  simp only [EvictionKeepsChains, not_forall] at broken
  obtain ⟨page, rfl, noFree, absent, victim, middle, found, slot, slotLt, stored,
    unsafely⟩ := broken
  obtain ⟨last, fetchEq, outcome⟩ := fetchPage_of_victim coherent absent noFree found
  refine ⟨last, some victim, by simp [BufferManager.step, fetchEq], ?_⟩
  cases outcome with
  | hit frameLt holds => exact absurd holds (absent _ frameLt)
  | load _ free => simp [noFree] at free
  | @evict _ next slot' steps _ _ found' slotLt' stored' stepsLt isEmpty occupied =>
    rw [found, some.injEq, Prod.mk.injEq] at found'
    obtain ⟨-, rfl⟩ := found'
    have slotEq := coherent.matching.unique slot' slotLt' slot slotLt _ stored' stored
    subst slotEq
    have table := (findVictimLoop_eq_some coherent.hand_lt found).2.2.2.2.1
    have matching := coherent.matching_of_evict absent noFree found slotLt stored
      (Nat.mod_lt (firstSlot page + steps) (by decide)) isEmpty
    obtain ⟨other, otherLt, lost, otherStored, slotEmpty, crosses⟩ :=
      exists_crossed_of_not_replacesSafely firstSlot_lt stepsLt isEmpty occupied unsafely
    rw [← table, ← storedPage_clear, ← storedPage_fill] at otherStored slotEmpty
    obtain ⟨frame, frameLt, -, -, holds⟩ := matching.entry_loaded other otherLt lost otherStored
    have nonneg := matching.loaded_nonneg frame frameLt trivial
    rw [holds] at nonneg
    have missing := lookupPage_of_crossed matching otherLt slotLt otherStored slotEmpty crosses
    obtain ⟨lostPage, rfl⟩ := Int.eq_ofNat_of_zero_le nonneg
    intro agrees
    exact (agrees.missing_iff lostPage).mp missing frame frameLt holds

end

def fullFrames : Nat → Page := (filled bufferPoolSize).bufferPool

def fullTable : Nat → PageTableEntry := (filled bufferPoolSize).pageTable

def fullBits : Nat → Bool := (filled bufferPoolSize).referenceBits

theorem filled_eq_crowded : filled bufferPoolSize = crowded fullFrames fullTable fullBits 0 := by
  have size : bufferPoolSize = 1024 := rfl
  apply Pool.ext
  · funext frame
    by_cases below : frame < 1021
    · have loaded : frame < 1024 ∧ 1024 ≤ frame + 1024 := by omega
      simp [filled, crowded, size, loaded, below]
    · simp [crowded, below, fullFrames]
  · funext slot
    by_cases inside : 3 ≤ slot ∧ slot < 1024
    · simp [filled, crowded, size, inside]
    · simp [crowded, inside, fullTable]
  · simp [filled, crowded]
  · rfl
  · rfl

def unpinnedOne : Pool :=
  crowded (update fullFrames 1022 ⟨1, false, 0⟩) fullTable fullBits 0

theorem unpin_one : unpinPage (filled bufferPoolSize) (1 : Nat) = some unpinnedOne := by
  rw [filled_eq_crowded]
  exact unpinPage_crowded 1022 (by decide) rfl (by decide)

def collidedTable : Nat → PageTableEntry :=
  update fullTable 1 ⟨2048, 1022⟩

def collided (frames : Nat → Page) : Pool :=
  crowded frames collidedTable fullBits 1023

theorem lookup_collided_missing : lookupPage unpinnedOne (2048 : Nat) = some (-1) := by
  have first : firstSlot (2048 : Nat) = 0 := by decide
  rw [lookupPage_of_steps _ _ 1024 (by decide), first]
  · rfl
  · rw [first]
    exact .inl rfl
  · intro passed passedLt
    have entry : unpinnedOne.pageTable passed = ⟨passed, (1023 - passed : Nat)⟩ := by
      simp [unpinnedOne, crowded, fullTable, filled, bufferPoolSize, passedLt]
    rw [first, Nat.zero_add, Nat.mod_eq_of_lt (lt_trans passedLt (by decide)), entry]
    show (passed : Int) ≠ -1 ∧ (passed : Int) ≠ (2048 : Nat)
    omega

theorem fetch_collided : fetchPage unpinnedOne (2048 : Nat) =
    some (collided (update fullFrames 1022 ⟨2048, false, 1⟩), 1022) := by
  have found : findVictimPage unpinnedOne = some (1022,
      crowded (update fullFrames 1022 ⟨1, false, 0⟩) fullTable
        (update fullBits 1022 false) 1023) := by
    show findVictimLoop (1027 + 1021) (crowded _ _ _ 0) = _
    rw [findVictimLoop_crowded, pass_crowded _ (by decide) (by decide),
      reference_crowded _ (by decide) (by decide) (by decide),
      pass_crowded _ (by decide) (by decide)]
    show findVictimLoop (3 + 1021) (crowded _ _ _ 0) = _
    rw [findVictimLoop_crowded, pass_crowded _ (by decide) (by decide),
      take_crowded _ (by decide) (by decide) (by decide)]
    rfl
  have fetched := fetchPage_crowded 1 1 lookup_collided_missing found (by decide)
    (by decide) (by decide) rfl rfl
  have bits : update fullBits 1022 true = fullBits := update_eq_self 1022 fullBits
  simp only [update_idem, bits] at fetched
  exact fetched

def releasedFrames : Nat → Page :=
  update (update (update fullFrames 1022 ⟨2048, false, 0⟩) 1023 ⟨0, false, 0⟩) 1021 ⟨2, false, 0⟩

theorem unpin_collided : unpinPage (collided (update fullFrames 1022 ⟨2048, false, 1⟩))
      (2048 : Nat) = some (collided (update fullFrames 1022 ⟨2048, false, 0⟩)) := by
  have unpinned : unpinPage (collided (update fullFrames 1022
      ⟨2048, false, 1⟩)) (2048 : Nat) = _ := unpinPage_crowded 1022 (by decide) rfl (by decide)
  rw [update_idem] at unpinned
  exact unpinned

theorem unpin_zero : unpinPage (collided (update fullFrames 1022 ⟨2048, false, 0⟩))
      (0 : Nat) =
        some (collided (update (update fullFrames 1022 ⟨2048, false, 0⟩) 1023 ⟨0, false, 0⟩)) :=
  unpinPage_crowded 1023 (by decide) rfl (by decide)

theorem unpin_two : unpinPage (collided (update (update fullFrames 1022
      ⟨2048, false, 0⟩) 1023 ⟨0, false, 0⟩)) (2 : Nat) =
        some (collided releasedFrames) := unpinPage_crowded 1021 (by decide) rfl (by decide)

def unlinkedFrames : Nat → Page :=
  update releasedFrames 1023 ⟨1024, false, 1⟩

def unlinkedTable : Nat → PageTableEntry :=
  update (update collidedTable 0 ⟨-1, -1⟩) 1024 ⟨1024, 1023⟩

def unlinkedBits : Nat → Bool :=
  update (update (update (update fullBits 1023 false) 1021 false) 1022 false) 1023 true

def unlinked : Pool :=
  crowded unlinkedFrames unlinkedTable unlinkedBits 0

theorem fetch_unlinked :
    fetchPage (collided releasedFrames) (1024 : Nat) = some (unlinked, 1023) := by
  have found : findVictimPage (collided releasedFrames) = some (1023,
      crowded releasedFrames collidedTable (update (update
        (update fullBits 1023 false) 1021 false) 1022 false) 0) := by
    show findVictimLoop (2047 + 1) (crowded _ _ _ 1023) = _
    rw [reference_crowded _ (by decide) (by decide) (by decide)]
    show findVictimLoop (1026 + 1021) (crowded _ _ _ 0) = _
    rw [findVictimLoop_crowded, reference_crowded _ (by decide) (by decide) (by decide),
      reference_crowded _ (by decide) (by decide) (by decide),
      take_crowded _ (by decide) (by decide) (by decide)]
    rfl
  exact fetchPage_crowded 0 1024 rfl found (by decide) (by decide) (by decide) rfl rfl

/-- Lookups agree with the frames exactly if no eviction breaks the chain of a stored page. -/
theorem lookup_exact_iff_evictions_keep_chains (calls : List Call) :
    (∀ initial, initial <+: calls → ∀ reached,
        Reaches BufferManager.step (initBufferPool zeroedPool) initial reached →
          LookupExact reached) ↔
      Respects BufferManager.step EvictionKeepsChains (initBufferPool zeroedPool)
        calls :=
  always_iff_respects Coherent LookupExact (fun coherent => coherent.lookupExact)
    (fun coherent safe stepEq => coherent.step safe stepEq)
    (fun coherent broken => eviction_breaks_lookup coherent broken) coherent_initBufferPool calls

theorem lookup_misses_page_behind_evicted_slot :
    ¬ ∀ reached, Reaches BufferManager.step (initBufferPool zeroedPool)
        ((List.range bufferPoolSize).map .fetchPage ++
          [.unpinPage 1, .fetchPage 2048, .unpinPage 2048, .unpinPage 0,
            .unpinPage 2, .fetchPage 1024]) reached →
      LookupExact reached := by
  intro always
  have reached := always unlinked (reaches_append.mpr
    ⟨filled bufferPoolSize, reaches_filled le_rfl, ?_⟩)
  · exact (reached.missing_iff 2048).mp rfl 1022 (by decide) rfl
  · apply reaches_cons.mpr ⟨_, _, step_unpinPage unpin_one, _⟩
    apply reaches_cons.mpr ⟨_, _, step_fetchPage fetch_collided, _⟩
    apply reaches_cons.mpr ⟨_, _, step_unpinPage unpin_collided, _⟩
    apply reaches_cons.mpr ⟨_, _, step_unpinPage unpin_zero, _⟩
    apply reaches_cons.mpr ⟨_, _, step_unpinPage unpin_two, _⟩
    apply reaches_cons.mpr ⟨_, _, step_fetchPage fetch_unlinked, _⟩
    exact reaches_nil.mpr rfl

end BitsAndBytes.BufferManager
