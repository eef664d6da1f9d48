import BitsAndBytes.BufferManager

/-! # The clock of the buffer pool -/

namespace BitsAndBytes.BufferManager

open LinearProbing Function Option

variable {pool : Pool} {bound victim frame : Nat}

def Pool.withHand (pool : Pool) (hand : Nat) : Pool :=
  { pool with clockHand := hand }

def Pool.withoutReference (pool : Pool) (frame : Nat) : Pool :=
  { pool with
    referenceBits := update pool.referenceBits frame false }

theorem findVictimLoop_pinned (bound : Nat)
    (pinned : (pool.bufferPool pool.clockHand).pinCount ≠ 0) :
    findVictimLoop (bound + 1) pool = findVictimLoop bound
      (pool.withHand ((pool.clockHand + 1) % bufferPoolSize)) := by
  simp [findVictimLoop, pinned, Pool.withHand]

theorem findVictimLoop_referenced (bound : Nat)
    (unpinned : (pool.bufferPool pool.clockHand).pinCount = 0)
    (referenced : pool.referenceBits pool.clockHand) :
    findVictimLoop (bound + 1) pool = findVictimLoop bound
      ((pool.withoutReference pool.clockHand).withHand
        ((pool.clockHand + 1) % bufferPoolSize)) := by
  simp [findVictimLoop, unpinned, referenced, Pool.withHand, Pool.withoutReference]

theorem findVictimLoop_unreferenced (bound : Nat)
    (unpinned : (pool.bufferPool pool.clockHand).pinCount = 0)
    (unreferenced : pool.referenceBits pool.clockHand = false) :
    findVictimLoop (bound + 1) pool = some (pool.clockHand,
      pool.withHand ((pool.clockHand + 1) % bufferPoolSize)) := by
  simp [findVictimLoop, unpinned, unreferenced, Pool.withHand]

variable {count passed : Nat}

theorem findVictimLoop_eq_some {next : Pool} (handLt : pool.clockHand < bufferPoolSize)
    (found : findVictimLoop bound pool = some (victim, next)) :
    victim < bufferPoolSize ∧ (pool.bufferPool victim).pinCount = 0 ∧
      next.clockHand < bufferPoolSize ∧ next.bufferPool = pool.bufferPool ∧
        next.pageTable = pool.pageTable ∧ next.freeList = pool.freeList := by
  induction bound generalizing pool with
  | zero => simp [findVictimLoop] at found
  | succ bound ih =>
    have nextLt : (pool.clockHand + 1) % bufferPoolSize < bufferPoolSize := Nat.mod_lt _ (by decide)
    by_cases unpinned : (pool.bufferPool pool.clockHand).pinCount = 0
    · by_cases referenced : pool.referenceBits pool.clockHand
      · rw [findVictimLoop_referenced bound unpinned referenced] at found
        apply ih _ found
        exact nextLt
      · rw [findVictimLoop_unreferenced bound unpinned (by simpa using referenced),
          some.injEq, Prod.mk.injEq] at found
        rcases found with ⟨rfl, rfl⟩
        exact ⟨handLt, unpinned, nextLt, rfl, rfl, rfl⟩
    · rw [findVictimLoop_pinned bound unpinned] at found
      apply ih _ found
      exact nextLt

theorem advance_hand (hand more : Nat) : ((hand + 1) % bufferPoolSize + more) % bufferPoolSize =
      (hand + (more + 1)) % bufferPoolSize := by
  rw [Nat.mod_add_mod]
  congr 1
  omega

theorem findVictimLoop_pass (pool : Pool) (bound count : Nat)
    (handLt : pool.clockHand < bufferPoolSize) (pinned : ∀ passed < count, (pool.bufferPool
      ((pool.clockHand + passed) % bufferPoolSize)).pinCount ≠ 0) :
    findVictimLoop (bound + count) pool = findVictimLoop bound
      (pool.withHand ((pool.clockHand + count) % bufferPoolSize)) := by
  induction count generalizing pool with
  | zero =>
    rw [Nat.add_zero, Nat.add_zero, Nat.mod_eq_of_lt handLt]
    rfl
  | succ count ih =>
    have here := pinned 0 (by omega)
    rw [Nat.add_zero, Nat.mod_eq_of_lt handLt] at here
    rw [← Nat.add_assoc, findVictimLoop_pinned _ here, ih]
    · simp only [Pool.withHand, advance_hand]
    · exact Nat.mod_lt _ (by decide)
    · intro passed passedLt
      simp only [Pool.withHand, advance_hand]
      exact pinned (passed + 1) (by omega)

def Pool.afterIteration (pool : Pool) : Pool :=
  { pool with
    referenceBits :=
      if (pool.bufferPool pool.clockHand).pinCount = 0 then
        update pool.referenceBits pool.clockHand false
      else
        pool.referenceBits
    clockHand := (pool.clockHand + 1) % bufferPoolSize }

def Pool.Available (pool : Pool) (frame : Nat) : Prop :=
  (pool.bufferPool frame).pinCount = 0 ∧ pool.referenceBits frame = false

theorem findVictimLoop_of_available (bound : Nat) (available : pool.Available pool.clockHand) :
    findVictimLoop (bound + 1) pool = some (pool.clockHand, pool.afterIteration) := by
  have cleared : update pool.referenceBits pool.clockHand false = pool.referenceBits := by
    rw [← available.2, update_eq_self]
  rw [findVictimLoop_unreferenced bound available.1 available.2, Pool.afterIteration,
    if_pos available.1, cleared, Pool.withHand]

theorem findVictimLoop_of_not_available (bound : Nat)
    (unavailable : ¬ pool.Available pool.clockHand) :
    findVictimLoop (bound + 1) pool = findVictimLoop bound pool.afterIteration := by
  by_cases unpinned : (pool.bufferPool pool.clockHand).pinCount = 0
  · have referenced : pool.referenceBits pool.clockHand := by
      by_contra unreferenced
      exact unavailable ⟨unpinned, by simpa using unreferenced⟩
    rw [findVictimLoop_referenced bound unpinned referenced, Pool.afterIteration, if_pos unpinned]
    rfl
  · rw [findVictimLoop_pinned bound unpinned, Pool.afterIteration, if_neg unpinned]
    rfl

theorem referenceBits_afterIteration (pinned : (pool.bufferPool frame).pinCount ≠ 0) :
    pool.afterIteration.referenceBits frame = pool.referenceBits frame := by
  simp only [Pool.afterIteration]
  split
  case isTrue unpinned =>
    have different : frame ≠ pool.clockHand := by
      rintro rfl
      exact pinned unpinned
    rw [update_of_ne different]
  case isFalse => rfl

theorem bufferPool_iterate (pool : Pool) (count : Nat) :
    (Pool.afterIteration^[count] pool).bufferPool = pool.bufferPool := by
  induction count with
  | zero => rfl
  | succ count ih =>
    rw [iterate_succ_apply']
    exact ih

theorem referenceBits_iterate (pinned : (pool.bufferPool frame).pinCount ≠ 0) (count : Nat) :
    (Pool.afterIteration^[count] pool).referenceBits frame = pool.referenceBits frame := by
  induction count with
  | zero => rfl
  | succ count ih =>
    rw [iterate_succ_apply', referenceBits_afterIteration, ih]
    rwa [bufferPool_iterate]

theorem findVictimLoop_iterate (bound : Nat) (unavailable : ∀ passed < count,
      ¬ (Pool.afterIteration^[passed] pool).Available
        (Pool.afterIteration^[passed] pool).clockHand) :
    findVictimLoop (bound + count) pool =
      findVictimLoop bound (Pool.afterIteration^[count] pool) := by
  induction count generalizing bound with
  | zero => rfl
  | succ count ih =>
    rw [show bound + (count + 1) = bound + 1 + count by omega,
      ih (bound + 1) fun passed passedLt => unavailable passed (by omega),
      findVictimLoop_of_not_available bound (unavailable count (by omega)),
      iterate_succ_apply']

def Pool.frameAt (pool : Pool) (passed : Nat) : Nat :=
  (pool.clockHand + passed) % bufferPoolSize

theorem frameAt_lt (pool : Pool) (passed : Nat) : pool.frameAt passed < bufferPoolSize :=
  Nat.mod_lt _ (by decide)

/-- The first frame from the clock hand on that has the property. -/
def Pool.IsFirst (pool : Pool) (property : Nat → Prop) (frame : Nat) : Prop :=
  ∃ passed < bufferPoolSize, frame = pool.frameAt passed ∧ property frame ∧
    ∀ earlier < passed, ¬ property (pool.frameAt earlier)

/-- The first available frame, or the first unpinned one if none is available. -/
def Pool.IsVictim (pool : Pool) (frame : Nat) : Prop :=
  pool.IsFirst pool.Available frame ∨ (∀ frame < bufferPoolSize, ¬ pool.Available frame) ∧
      pool.IsFirst (fun frame => (pool.bufferPool frame).pinCount = 0) frame

section

variable (handLt : pool.clockHand < bufferPoolSize)
include handLt

theorem clockHand_iterate (count : Nat) :
    (Pool.afterIteration^[count] pool).clockHand = pool.frameAt count := by
  induction count with
  | zero => exact (Nat.mod_eq_of_lt handLt).symm
  | succ count ih =>
    rw [iterate_succ_apply', Pool.afterIteration, ih, Pool.frameAt, Pool.frameAt,
      Nat.mod_add_mod, Nat.add_assoc]

theorem frameAt_injective {first second : Nat} (firstLt : first < bufferPoolSize)
    (secondLt : second < bufferPoolSize) (same : pool.frameAt first = pool.frameAt second) :
    first = second := by
  rw [← distance_add_mod handLt firstLt, ← distance_add_mod handLt secondLt]
  exact congrArg (distance bufferPoolSize pool.clockHand) same

theorem exists_frameAt (frameLt : frame < bufferPoolSize) :
    ∃ passed < bufferPoolSize, pool.frameAt passed = frame :=
  ⟨distance bufferPoolSize pool.clockHand frame, distance_lt (by decide),
    add_distance_mod handLt frameLt⟩

theorem referenceBits_frameAt (ahead : count ≤ passed) (passedLt : passed < bufferPoolSize) :
    (Pool.afterIteration^[count] pool).referenceBits (pool.frameAt passed) =
      pool.referenceBits (pool.frameAt passed) := by
  induction count with
  | zero => rfl
  | succ count ih =>
    have different : pool.frameAt passed ≠ pool.frameAt count := by
      intro same
      have := frameAt_injective handLt passedLt (by omega) same
      omega
    rw [iterate_succ_apply', Pool.afterIteration]
    simp only [clockHand_iterate handLt]
    split
    · rw [update_of_ne different, ih (by omega)]
    · exact ih (by omega)

theorem referenceBits_of_passed (behind : passed < count)
    (unpinned : (pool.bufferPool (pool.frameAt passed)).pinCount = 0) :
    (Pool.afterIteration^[count] pool).referenceBits (pool.frameAt passed) = false := by
  induction count with
  | zero => omega
  | succ count ih =>
    rw [iterate_succ_apply', Pool.afterIteration]
    simp only [clockHand_iterate handLt, bufferPool_iterate]
    by_cases same : pool.frameAt passed = pool.frameAt count
    · rw [← same, if_pos unpinned, update_self]
    · have earlier : passed ≠ count := by
        rintro rfl
        exact same rfl
      have before := ih (by omega)
      split
      · rw [update_of_ne same, before]
      · exact before

theorem available_iterate (countLt : count < bufferPoolSize) :
    (Pool.afterIteration^[count] pool).Available
        (Pool.afterIteration^[count] pool).clockHand ↔
      pool.Available (pool.frameAt count) := by
  rw [Pool.Available, Pool.Available, bufferPool_iterate, clockHand_iterate handLt,
    referenceBits_frameAt handLt le_rfl countLt]

theorem findVictimLoop_of_first (bound : Nat) (countLt : count < bufferPoolSize)
    (available : pool.Available (pool.frameAt count))
    (earlier : ∀ passed < count, ¬ pool.Available (pool.frameAt passed)) :
    findVictimLoop (bound + 1 + count) pool =
      some (pool.frameAt count, Pool.afterIteration^[count + 1] pool) := by
  rw [findVictimLoop_iterate, findVictimLoop_of_available bound, clockHand_iterate handLt,
    iterate_succ_apply']
  · exact (available_iterate handLt countLt).mpr available
  · intro passed passedLt here
    exact earlier passed passedLt ((available_iterate handLt (by omega)).mp here)

section

variable (referenced : ∀ frame < bufferPoolSize, ¬ pool.Available frame)
include referenced

theorem findVictimLoop_turn (bound : Nat) : findVictimLoop (bound + bufferPoolSize) pool =
      findVictimLoop bound (Pool.afterIteration^[bufferPoolSize] pool) := by
  apply findVictimLoop_iterate
  intro passed passedLt here
  exact referenced _ (frameAt_lt pool passed) ((available_iterate handLt passedLt).mp here)

omit referenced in
theorem frameAt_turn (count : Nat) :
    (Pool.afterIteration^[bufferPoolSize] pool).frameAt count = pool.frameAt count := by
  rw [Pool.frameAt, clockHand_iterate handLt, Pool.frameAt, Pool.frameAt, Nat.add_mod_right,
    Nat.mod_add_mod]

omit referenced in
theorem available_turn (countLt : count < bufferPoolSize) :
    (Pool.afterIteration^[bufferPoolSize] pool).Available (pool.frameAt count) ↔
      (pool.bufferPool (pool.frameAt count)).pinCount = 0 := by
  rw [Pool.Available, bufferPool_iterate]
  constructor
  · exact And.left
  · intro unpinned
    exact ⟨unpinned, referenceBits_of_passed handLt countLt unpinned⟩

theorem findVictimLoop_of_all_referenced (bound : Nat) (countLt : count < bufferPoolSize)
    (unpinned : (pool.bufferPool (pool.frameAt count)).pinCount = 0)
    (earlier : ∀ passed < count, (pool.bufferPool (pool.frameAt passed)).pinCount ≠ 0) :
    findVictimLoop (bound + 1 + count + bufferPoolSize) pool = some (pool.frameAt count,
        Pool.afterIteration^[count + 1] (Pool.afterIteration^[bufferPoolSize] pool)) := by
  have turnLt : (Pool.afterIteration^[bufferPoolSize] pool).clockHand < bufferPoolSize := by
    rw [clockHand_iterate handLt]
    exact frameAt_lt pool _
  rw [findVictimLoop_turn handLt referenced, findVictimLoop_of_first turnLt bound countLt,
    frameAt_turn handLt]
  · rw [frameAt_turn handLt]
    exact (available_turn handLt countLt).mpr unpinned
  · intro passed passedLt here
    rw [frameAt_turn handLt] at here
    exact earlier passed passedLt ((available_turn handLt (by omega)).mp here)

end

theorem exists_isFirst (property : Nat → Prop) (frameLt : frame < bufferPoolSize)
    (holds : property frame) : ∃ first, pool.IsFirst property first := by
  classical
  obtain ⟨passed, passedLt, rfl⟩ := exists_frameAt handLt frameLt
  have exists_passed : ∃ passed, property (pool.frameAt passed) := ⟨passed, holds⟩
  have atMost := Nat.find_min' exists_passed holds
  refine ⟨_, Nat.find exists_passed, by omega, rfl, Nat.find_spec exists_passed, ?_⟩
  intro earlier earlierLt
  exact Nat.find_min exists_passed earlierLt

theorem exists_isVictim
    (unpinned : ∃ frame < bufferPoolSize, (pool.bufferPool frame).pinCount = 0) :
    ∃ victim, pool.IsVictim victim := by
  by_cases referenced : ∀ frame < bufferPoolSize, ¬ pool.Available frame
  · obtain ⟨frame, frameLt, unpinned⟩ := unpinned
    obtain ⟨victim, first⟩ := exists_isFirst handLt
      (fun frame => (pool.bufferPool frame).pinCount = 0) frameLt unpinned
    exact ⟨victim, .inr ⟨referenced, first⟩⟩
  · push Not at referenced
    obtain ⟨frame, frameLt, available⟩ := referenced
    obtain ⟨victim, first⟩ := exists_isFirst handLt pool.Available frameLt available
    exact ⟨victim, .inl first⟩

theorem findVictimLoop_of_isVictim (isVictim : pool.IsVictim victim) (bound : Nat) :
    ∃ count, findVictimLoop (bound + 2 * bufferPoolSize) pool =
      some (victim, Pool.afterIteration^[count] pool) := by
  rcases isVictim with ⟨passed, passedLt, rfl, available, earlier⟩ |
    ⟨referenced, passed, passedLt, rfl, unpinned, earlier⟩
  · have enough : bound + 2 * bufferPoolSize =
        bound + (2 * bufferPoolSize - 1 - passed) + 1 + passed := by omega
    rw [enough]
    exact ⟨_, findVictimLoop_of_first handLt _ passedLt available earlier⟩
  · have enough : bound + 2 * bufferPoolSize =
        bound + (bufferPoolSize - 1 - passed) + 1 + passed + bufferPoolSize := by omega
    rw [enough, findVictimLoop_of_all_referenced handLt referenced _ passedLt unpinned earlier,
      ← iterate_add_apply]
    exact ⟨_, rfl⟩

end

theorem findVictimLoop_mono {result : Nat × Pool}
    (found : findVictimLoop bound pool = some result) (more : Nat) :
    findVictimLoop (bound + more) pool = some result := by
  induction bound generalizing pool with
  | zero => simp [findVictimLoop] at found
  | succ bound ih =>
    rw [Nat.add_right_comm]
    by_cases available : pool.Available pool.clockHand
    · rw [findVictimLoop_of_available _ available] at found ⊢
      exact found
    · rw [findVictimLoop_of_not_available _ available] at found ⊢
      exact ih found

theorem findVictimPage_isSome_iff (handLt : pool.clockHand < bufferPoolSize) :
    (findVictimPage pool).isSome ↔
      ∃ frame < bufferPoolSize, (pool.bufferPool frame).pinCount = 0 := by
  constructor
  · intro returned
    obtain ⟨⟨victim, next⟩, found⟩ := isSome_iff_exists.mp returned
    obtain ⟨victimLt, unpinned, -⟩ := findVictimLoop_eq_some handLt found
    exact ⟨victim, victimLt, unpinned⟩
  · intro unpinned
    obtain ⟨victim, isVictim⟩ := exists_isVictim handLt unpinned
    obtain ⟨count, found⟩ := findVictimLoop_of_isVictim handLt isVictim 0
    rw [findVictimPage, ← Nat.zero_add (2 * bufferPoolSize), found]
    rfl

theorem findVictimPage_eq_none_iff (handLt : pool.clockHand < bufferPoolSize) :
    findVictimPage pool = none ↔
      ∀ frame < bufferPoolSize, (pool.bufferPool frame).pinCount ≠ 0 := by
  rw [← not_isSome_iff_eq_none, findVictimPage_isSome_iff handLt]
  push Not
  rfl

/-- The search ends, in two turns and at the clock's victim, exactly if a frame is not pinned. -/
theorem find_victim_page_follows_clock (pool : Pool) (handLt : pool.clockHand < bufferPoolSize) :
    ((∃ bound, (findVictimLoop bound pool).isSome) ↔
        ∃ frame < bufferPoolSize, (pool.bufferPool frame).pinCount = 0) ∧
      ((∃ bound, (findVictimLoop bound pool).isSome) →
        (findVictimLoop (2 * bufferPoolSize) pool).isSome) ∧
      (∀ bound victim next, findVictimLoop bound pool = some (victim, next) →
        victim < bufferPoolSize ∧ (pool.bufferPool victim).pinCount = 0 ∧
          pool.IsVictim victim ∧ ∃ count, next = Pool.afterIteration^[count] pool) ∧
      ∀ count frame, (pool.bufferPool frame).pinCount ≠ 0 →
        (Pool.afterIteration^[count] pool).referenceBits frame = pool.referenceBits frame := by
  have unpinned_of_found : ∀ {bound victim next}, findVictimLoop bound pool = some (victim, next) →
        victim < bufferPoolSize ∧ (pool.bufferPool victim).pinCount = 0 := by
    intro bound victim next found
    obtain ⟨victimLt, unpinned, -⟩ := findVictimLoop_eq_some handLt found
    exact ⟨victimLt, unpinned⟩
  have unpinned_of_ends : (∃ bound, (findVictimLoop bound pool).isSome) →
      ∃ frame < bufferPoolSize, (pool.bufferPool frame).pinCount = 0 := by
    rintro ⟨bound, returned⟩
    obtain ⟨⟨victim, next⟩, found⟩ := isSome_iff_exists.mp returned
    exact ⟨victim, unpinned_of_found found⟩
  have returns := (findVictimPage_isSome_iff handLt).mpr
  refine ⟨⟨unpinned_of_ends, fun unpinned => ⟨_, returns unpinned⟩⟩,
    fun ends => returns (unpinned_of_ends ends), ?_, ?_⟩
  · intro bound victim next found
    obtain ⟨victimLt, unpinned⟩ := unpinned_of_found found
    obtain ⟨first, isVictim⟩ := exists_isVictim handLt ⟨victim, victimLt, unpinned⟩
    obtain ⟨count, alsoFound⟩ := findVictimLoop_of_isVictim handLt isVictim bound
    have same := (findVictimLoop_mono found (2 * bufferPoolSize)).symm.trans alsoFound
    rw [some.injEq, Prod.mk.injEq] at same
    rw [same.1]
    exact ⟨same.1 ▸ victimLt, same.1 ▸ unpinned, isVictim, count, same.2⟩
  · intro count frame pinned
    exact referenceBits_iterate pinned count

def onlyTwoUnpinned : Pool where
  bufferPool := fun frame => ⟨frame, false, if frame = 2 then 0 else 1⟩
  pageTable := fun _ => ⟨-1, -1⟩
  freeList := []
  clockHand := 1
  referenceBits := fun _ => true

theorem find_victim_page_of_only_two_unpinned : onlyTwoUnpinned.clockHand < bufferPoolSize ∧
      (findVictimLoop (2 * bufferPoolSize) onlyTwoUnpinned).isSome := by
  have handLt : onlyTwoUnpinned.clockHand < bufferPoolSize := by decide
  have follows := find_victim_page_follows_clock onlyTwoUnpinned handLt
  exact ⟨handLt, follows.2.1 (follows.1.mpr ⟨2, by decide, rfl⟩)⟩

end BitsAndBytes.BufferManager
