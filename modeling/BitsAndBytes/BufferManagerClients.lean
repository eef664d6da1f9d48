import BitsAndBytes.BufferManagerRuns

/-! # Clients of the buffer pool -/

namespace BitsAndBytes.BufferManager

open LinearProbing OperationRuns SignedInt Function List Option

structure Handle where
  page : Nat
  frame : Nat
deriving DecidableEq, Repr

structure Client where
  pool : Pool
  held : List Handle

inductive Request
  | fetchPage (page : Nat)
  | unpinPage (handle : Handle)
  | markPageDirty (page : Nat)
  | flushDirtyPages
deriving DecidableEq, Repr

def Request.call : Request → Call
  | .fetchPage page => .fetchPage page
  | .unpinPage handle => .unpinPage handle.page
  | .markPageDirty page => .markPageDirty page
  | .flushDirtyPages => .flushDirtyPages

def Request.matched (held : List Handle) : Request → Bool
  | .unpinPage handle => decide (handle ∈ held)
  | _ => true

def heldAfter (held : List Handle) : Request → Option Nat → List Handle
  | .fetchPage page, some frame => ⟨page, frame⟩ :: held
  | .unpinPage handle, _ => held.erase handle
  | _, _ => held

def clientStep (client : Client) (request : Request) : Option (Client × Option Nat) :=
  if request.matched client.held then
    (step client.pool request.call).map fun next =>
      (⟨next.1, heldAfter client.held request next.2⟩, next.2)
  else
    none

def newClient : Client :=
  ⟨initBufferPool zeroedPool, []⟩

/-- Each frame that the client holds still contains its page. -/
def HeldPagesKept (client : Client) : Prop :=
  ∀ handle ∈ client.held, handle.frame < bufferPoolSize ∧
    (client.pool.bufferPool handle.frame).pageId = handle.page

def holders (held : List Handle) (frame : Nat) : Nat :=
  held.countP fun handle => handle.frame = frame

/-- The pin count of a frame is the number of handles on it. -/
structure Accounted (client : Client) : Prop where
  coherent : Coherent client.pool
  kept : HeldPagesKept client
  pins : ∀ frame < bufferPoolSize,
    (client.pool.bufferPool frame).pinCount = holders client.held frame
  pins_le : ∀ frame < bufferPoolSize, (client.pool.bufferPool frame).pinCount ≤ intMax

/-- The eviction keeps the chains, and no pin count goes over `INT_MAX`. -/
def KeepsHandles (client : Client) (request : Request) : Prop :=
  EvictionKeepsChains client.pool request.call ∧
    ∀ page, request = .fetchPage page → ∀ frame < bufferPoolSize,
      (client.pool.bufferPool frame).pageId = page →
        (client.pool.bufferPool frame).pinCount ≠ intMax

variable {held : List Handle} {handle : Handle} {frame page : Nat} {client : Client}
  {pool next : Pool}

theorem holders_cons (held : List Handle) (page frame other : Nat) :
    holders (⟨page, frame⟩ :: held) other =
      holders held other + if frame = other then 1 else 0 := by
  simp [holders, countP_cons]

theorem holders_erase (member : handle ∈ held) (frame : Nat) :
    holders held frame = holders (held.erase handle) frame +
      if handle.frame = frame then 1 else 0 := by
  have counted := (perm_cons_erase member).countP_eq
    fun handle => decide (handle.frame = frame)
  rw [countP_cons] at counted
  simpa [holders] using counted

theorem not_held_of_holders_eq_zero (none : holders held frame = 0) :
    ∀ handle ∈ held, handle.frame ≠ frame := by
  simpa [holders, countP_eq_zero] using none

section

variable (accounted : Accounted client)
include accounted

theorem Accounted.load (coherent : Coherent pool) (frameLt : frame < bufferPoolSize)
    (unheld : holders client.held frame = 0)
    (loaded : pool.bufferPool = update client.pool.bufferPool frame ⟨page, false, 1⟩) :
    Accounted ⟨pool, ⟨page, frame⟩ :: client.held⟩ := by
  constructor
  · exact coherent
  · intro handle member
    rw [loaded]
    rcases mem_cons.mp member with rfl | earlier
    · simp [frameLt]
    · have different := not_held_of_holders_eq_zero unheld handle earlier
      rw [update_of_ne different]
      exact accounted.kept handle earlier
  · intro other otherLt
    simp only [loaded, holders_cons]
    by_cases same : other = frame
    · subst same
      simp [unheld]
    · rw [update_of_ne same, if_neg (Ne.symm same)]
      exact accounted.pins other otherLt
  · intro other otherLt
    simp only [loaded]
    by_cases same : other = frame
    · subst same
      simp [intMax]
    · rw [update_of_ne same]
      exact accounted.pins_le other otherLt

theorem Accounted.hit (coherent : Coherent (hitPage client.pool frame))
    (frameLt : frame < bufferPoolSize) (holds : (client.pool.bufferPool frame).pageId = page)
    (room : (client.pool.bufferPool frame).pinCount ≠ intMax) :
    Accounted ⟨hitPage client.pool frame, ⟨page, frame⟩ :: client.held⟩ := by
  have pins := accounted.pins frame frameLt
  have pinsLe := accounted.pins_le frame frameLt
  have exactCount : wrapped ((client.pool.bufferPool frame).pinCount + 1) =
      (client.pool.bufferPool frame).pinCount + 1 := by
    unfold intMax at room pinsLe
    exact wrapped_eq_self (by unfold intMin; omega) (by unfold intMax; omega)
  have samePages : ∀ other, ((hitPage client.pool frame).bufferPool other).pageId =
      (client.pool.bufferPool other).pageId := pageId_update rfl
  constructor
  · exact coherent
  · intro handle member
    rw [samePages]
    rcases mem_cons.mp member with rfl | earlier
    · exact ⟨frameLt, holds⟩
    · exact accounted.kept handle earlier
  · intro other otherLt
    simp only [hitPage, holders_cons]
    by_cases same : other = frame
    · subst same
      simp only [update_self, if_true, exactCount]
      omega
    · rw [update_of_ne same, if_neg (Ne.symm same)]
      exact accounted.pins other otherLt
  · intro other otherLt
    simp only [hitPage]
    by_cases same : other = frame
    · subst same
      simp only [update_self, exactCount]
      omega
    · rw [update_of_ne same]
      exact accounted.pins_le other otherLt

theorem Accounted.fetch (safe : KeepsHandles client (.fetchPage page))
    (outcome : FetchOutcome client.pool page next frame) :
    Accounted ⟨next, ⟨page, frame⟩ :: client.held⟩ := by
  have coherent := accounted.coherent.fetch safe.1 outcome
  cases outcome with
  | hit frameLt holds =>
    exact accounted.hit coherent frameLt holds (safe.2 page rfl frame frameLt holds)
  | load absent free =>
    have isFree : frame ∈ client.pool.freeList := by simp [free]
    have empty := accounted.coherent.free_empty frame isFree
    have unheld : holders client.held frame = 0 := by
      simp only [holders, countP_eq_zero, decide_eq_true_eq]
      rintro handle member rfl
      have holds := (accounted.kept handle member).2
      omega
    exact accounted.load coherent (accounted.coherent.free_lt frame isFree) unheld rfl
  | evict absent noFree found =>
    obtain ⟨victimLt, unpinned, -, frames, -⟩ :=
      findVictimLoop_eq_some accounted.coherent.hand_lt found
    have unheld : holders client.held frame = 0 := by
      have pins := accounted.pins frame victimLt
      omega
    apply accounted.load coherent victimLt unheld
    show update _ _ _ = _
    rw [Pool.withoutEntry, frames]

theorem Accounted.unpin (member : handle ∈ client.held) (coherent : Coherent next)
    (unpinned : unpinPage client.pool handle.page = some next) :
    Accounted ⟨next, client.held.erase handle⟩ := by
  obtain ⟨frameLt, holds⟩ := accounted.kept handle member
  have pins := accounted.pins handle.frame frameLt
  have counted := holders_erase member
  have here := counted handle.frame
  rw [if_pos rfl] at here
  have notMissing : (handle.frame : Int) ≠ -1 := by omega
  have positive : 0 < (client.pool.bufferPool handle.frame).pinCount := by omega
  rw [unpinPage, accounted.coherent.lookup_of_holds frameLt holds] at unpinned
  simp only [map_some, Int.toNat_natCast, some.injEq] at unpinned
  rw [if_pos ⟨notMissing, positive⟩] at unpinned
  subst unpinned
  constructor
  · exact coherent
  · intro other otherMember
    obtain ⟨otherLt, otherHolds⟩ := accounted.kept other (mem_of_mem_erase otherMember)
    refine ⟨otherLt, ?_⟩
    rw [← otherHolds]
    apply pageId_update
    rfl
  · intro other otherLt
    by_cases same : other = handle.frame
    · subst same
      simp only [update_self]
      omega
    · have otherCount := counted other
      rw [if_neg (Ne.symm same)] at otherCount
      simp only [update_of_ne same]
      rw [accounted.pins other otherLt, otherCount, Nat.add_zero]
  · intro other otherLt
    have otherLe := accounted.pins_le other otherLt
    by_cases same : other = handle.frame
    · subst same
      simp only [update_self]
      omega
    · simp only [update_of_ne same]
      exact otherLe

theorem Accounted.of_same_pages (coherent : Coherent next)
    (same : ∀ frame, (next.bufferPool frame).pageId = (client.pool.bufferPool frame).pageId ∧
      (next.bufferPool frame).pinCount = (client.pool.bufferPool frame).pinCount) :
    Accounted ⟨next, client.held⟩ := by
  constructor
  · exact coherent
  · intro handle member
    rw [(same handle.frame).1]
    exact accounted.kept handle member
  · intro frame frameLt
    rw [(same frame).2]
    exact accounted.pins frame frameLt
  · intro frame frameLt
    rw [(same frame).2]
    exact accounted.pins_le frame frameLt

end

theorem markPageDirty_same (marked : markPageDirty pool page = some next) (frame : Nat) :
    (next.bufferPool frame).pageId = (pool.bufferPool frame).pageId ∧
      (next.bufferPool frame).pinCount = (pool.bufferPool frame).pinCount := by
  simp only [markPageDirty, map_eq_some_iff] at marked
  obtain ⟨frameId, -, rfl⟩ := marked
  split
  · by_cases here : frame = frameId.toNat
    · subst here
      simp
    · simp [update_of_ne here]
  · exact ⟨rfl, rfl⟩

theorem Accounted.step {next : Client} {request : Request} {out : Option Nat}
    (accounted : Accounted client) (safe : KeepsHandles client request)
    (stepEq : clientStep client request = some (next, out)) : Accounted next := by
  by_cases matched : request.matched client.held
  · simp only [clientStep, matched, if_true, map_eq_some_iff, Prod.mk.injEq] at stepEq
    obtain ⟨⟨pool, result⟩, poolStep, rfl, rfl⟩ := stepEq
    have coherent := accounted.coherent.step safe.1 poolStep
    cases request with
    | fetchPage page =>
      simp only [Request.call, BufferManager.step, map_eq_some_iff, Prod.mk.injEq] at poolStep
      obtain ⟨⟨fetched, frame⟩, fetchEq, rfl, rfl⟩ := poolStep
      exact accounted.fetch safe (fetchOutcome_of_eq_some accounted.coherent fetchEq)
    | unpinPage handle =>
      simp only [Request.call, BufferManager.step, map_eq_some_iff, Prod.mk.injEq] at poolStep
      obtain ⟨unpinned, unpinEq, rfl, -⟩ := poolStep
      exact accounted.unpin (by simpa [Request.matched] using matched) coherent unpinEq
    | markPageDirty page =>
      simp only [Request.call, BufferManager.step, map_eq_some_iff, Prod.mk.injEq] at poolStep
      obtain ⟨marked, markEq, rfl, -⟩ := poolStep
      exact accounted.of_same_pages coherent (markPageDirty_same markEq)
    | flushDirtyPages =>
      obtain ⟨rfl, -⟩ := poolStep
      apply accounted.of_same_pages coherent
      intro frame
      simp only [flushDirtyPages]
      split <;> exact ⟨rfl, rfl⟩
  · simp [clientStep, matched] at stepEq

theorem accounted_newClient : Accounted newClient := by
  constructor
  · exact coherent_initBufferPool
  · intro handle member
    simp [newClient] at member
  · intro frame _
    rfl
  · intro frame _
    show (0 : Int) ≤ intMax
    decide

/-- In a safe run a fetched frame holds its page until the matching unpin. -/
theorem held_pages_kept_of_safe_run (requests : List Request)
    (safe : Respects clientStep KeepsHandles newClient requests) :
    ∀ initial, initial <+: requests → ∀ reached,
      Reaches clientStep newClient initial reached → HeldPagesKept reached := by
  intro initial isInitial reached run
  have accounted : Accounted reached := run.guardedInvariant Accounted
      (fun accounted safe stepEq => accounted.step safe stepEq)
      (safe.of_prefix isInitial) accounted_newClient
  exact accounted.kept

theorem held_pages_kept_by_one_fetch : Respects clientStep KeepsHandles newClient
        [.fetchPage 5, .unpinPage ⟨5, 1023⟩] ∧
      ∀ initial, initial <+: [.fetchPage 5, .unpinPage ⟨5, 1023⟩] → ∀ reached,
        Reaches clientStep newClient initial reached → HeldPagesKept reached := by
  have safe : Respects clientStep KeepsHandles newClient [.fetchPage 5, .unpinPage ⟨5, 1023⟩] := by
    refine ⟨⟨?_, ?_⟩, fun next out _ => ⟨⟨?_, ?_⟩, fun _ _ _ => trivial⟩⟩
    · intro page _ noFree
      have free : newClient.pool.freeList = [] := noFree
      rw [newClient, freeList_initBufferPool] at free
      simp [bufferPoolSize] at free
    · intro page _ frame _ holds
      have nonneg : (-1 : Int) = page := holds
      omega
    · intro page isFetch
      cases isFetch
    · intro page isFetch
      cases isFetch
  exact ⟨safe, held_pages_kept_of_safe_run _ safe⟩

def doubledFrames : Nat → Page :=
  update unlinkedFrames 1021 ⟨2048, false, 1⟩

def doubledTable : Nat → PageTableEntry :=
  update (update unlinkedTable 2 ⟨-1, -1⟩) 0 ⟨2048, 1021⟩

def doubledBits : Nat → Bool :=
  update unlinkedBits 1021 true

def doubled : Pool :=
  crowded doubledFrames doubledTable doubledBits 1022

theorem fetch_doubled : fetchPage unlinked (2048 : Nat) = some (doubled, 1021) := by
  have found : findVictimPage unlinked =
      some (1021, crowded unlinkedFrames unlinkedTable unlinkedBits 1022) := by
    show findVictimLoop (1027 + 1021) (crowded _ _ _ 0) = _
    rw [findVictimLoop_crowded, take_crowded _ (by decide) (by decide) (by decide)]
    rfl
  exact fetchPage_crowded 2 0 rfl found (by decide) (by decide) (by decide) rfl rfl

def misdirected : Pool :=
  crowded (update doubledFrames 1022 ⟨4096, false, 1⟩)
    (update (update doubledTable 0 ⟨-1, -1⟩) 0 ⟨4096, 1022⟩)
    (update doubledBits 1022 true) 1023

theorem fetch_misdirected : fetchPage doubled (4096 : Nat) = some (misdirected, 1022) := by
  have found : findVictimPage doubled =
      some (1022, crowded doubledFrames doubledTable doubledBits 1023) := by
    rfl
  exact fetchPage_crowded 0 0 rfl found (by decide) (by decide) (by decide) rfl rfl

theorem fetch_wrong_frame :
    fetchPage misdirected (2048 : Nat) = some (hitPage misdirected 1022, 1022) := by
  rfl

theorem clientStep_fetchPage (fetched : fetchPage pool page = some (next, frame)) :
    clientStep ⟨pool, held⟩ (.fetchPage page) =
      some (⟨next, ⟨page, frame⟩ :: held⟩, some frame) := by
  simp [clientStep, Request.matched, Request.call, step_fetchPage fetched, heldAfter]

theorem clientStep_unpinPage (member : handle ∈ held)
    (unpinned : unpinPage pool handle.page = some next) :
    clientStep ⟨pool, held⟩ (.unpinPage handle) = some (⟨next, held.erase handle⟩, none) := by
  simp [clientStep, Request.matched, member, Request.call, step_unpinPage unpinned, heldAfter]

def filledHandles (count : Nat) : List Handle :=
  (range count).reverse.map fun page => ⟨page, bufferPoolSize - 1 - page⟩

theorem filledHandles_succ (count : Nat) :
    filledHandles (count + 1) = ⟨count, bufferPoolSize - 1 - count⟩ :: filledHandles count := by
  simp [filledHandles, range_succ]

theorem mem_filledHandles (pageLt : page < bufferPoolSize) :
    ⟨page, bufferPoolSize - 1 - page⟩ ∈ filledHandles bufferPoolSize := by
  simp [filledHandles, pageLt]

theorem reaches_filled_client : Reaches clientStep newClient
      ((range bufferPoolSize).map Request.fetchPage)
      ⟨filled bufferPoolSize, filledHandles bufferPoolSize⟩ := by
  have start : newClient = ⟨filled 0, filledHandles 0⟩ := by
    rw [filled_zero]
    rfl
  rw [start]
  apply reaches_range fun count => (⟨filled count, filledHandles count⟩ : Client)
  intro page pageLt
  rw [filledHandles_succ]
  exact ⟨_, clientStep_fetchPage (fetchPage_filled pageLt)⟩

theorem mem_erase_of_page_ne (other : Handle) (member : handle ∈ held)
    (different : handle.page ≠ other.page) : handle ∈ held.erase other := by
  apply (mem_erase_of_ne _).mpr member
  rintro rfl
  exact different rfl

theorem fetch_returns_frame_of_another_page : ¬ ∀ reached, Reaches clientStep newClient
        ((range bufferPoolSize).map .fetchPage ++
          [.unpinPage ⟨1, 1022⟩, .fetchPage 2048, .unpinPage ⟨2048, 1022⟩,
            .unpinPage ⟨0, 1023⟩, .unpinPage ⟨2, 1021⟩, .fetchPage 1024,
            .fetchPage 2048, .fetchPage 4096, .fetchPage 2048]) reached →
      HeldPagesKept reached := by
  intro always
  have one : ⟨1, 1022⟩ ∈ filledHandles bufferPoolSize := mem_filledHandles (by decide)
  have zero : ⟨0, 1023⟩ ∈ filledHandles bufferPoolSize := mem_filledHandles (by decide)
  have two : ⟨2, 1021⟩ ∈ filledHandles bufferPoolSize := mem_filledHandles (by decide)
  have stillZero := mem_erase_of_page_ne ⟨2048, 1022⟩
    (mem_cons_of_mem ⟨2048, 1022⟩ (mem_erase_of_page_ne ⟨1, 1022⟩ zero (by decide))) (by decide)
  have stillTwo := mem_erase_of_page_ne ⟨0, 1023⟩
    (mem_erase_of_page_ne ⟨2048, 1022⟩ (mem_cons_of_mem ⟨2048, 1022⟩
        (mem_erase_of_page_ne ⟨1, 1022⟩ two (by decide))) (by decide)) (by decide)
  have reached := reaches_append.mpr ⟨_, reaches_filled_client,
    reaches_cons.mpr ⟨_, _, clientStep_unpinPage one unpin_one,
    reaches_cons.mpr ⟨_, _, clientStep_fetchPage fetch_collided,
    reaches_cons.mpr ⟨_, _, clientStep_unpinPage mem_cons_self unpin_collided,
    reaches_cons.mpr ⟨_, _, clientStep_unpinPage stillZero unpin_zero,
    reaches_cons.mpr ⟨_, _, clientStep_unpinPage stillTwo unpin_two,
    reaches_cons.mpr ⟨_, _, clientStep_fetchPage fetch_unlinked,
    reaches_cons.mpr ⟨_, _, clientStep_fetchPage fetch_doubled,
    reaches_cons.mpr ⟨_, _, clientStep_fetchPage fetch_misdirected,
    reaches_cons.mpr ⟨_, _, clientStep_fetchPage fetch_wrong_frame, reaches_nil.mpr rfl⟩⟩⟩⟩⟩⟩⟩⟩⟩⟩
  have holds := (always _ reached ⟨2048, 1022⟩ mem_cons_self).2
  exact absurd holds (by decide)

end BitsAndBytes.BufferManager
