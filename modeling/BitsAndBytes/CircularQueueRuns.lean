import BitsAndBytes.CircularQueue
import BitsAndBytes.RingWindow

/-! # Runs of the circular queue -/

namespace BitsAndBytes.CircularQueue

open OperationRuns RingWindow Option Function List

variable {q : Queue}

/-- The indices are in range, and `num_entries` is their distance. -/
structure RepInvariant (q : Queue) : Prop where
  head_nonneg : 0 ≤ q.head
  head_lt : q.head < q.size
  tail_nonneg : 0 ≤ q.tail
  tail_lt : q.tail < q.size
  entries_nonneg : 0 ≤ q.numEntries
  entries_le : q.numEntries ≤ q.size
  tail_eq : q.tail = (q.head + q.numEntries) % q.size

structure Valid (q : Queue) : Prop extends RepInvariant q where
  initialized : q.initialized

theorem Valid.positions (valid : Valid q) : Positions q.size q.head q.tail q.numEntries :=
  ⟨valid.head_nonneg, valid.head_lt, valid.entries_nonneg, valid.entries_le, valid.tail_eq⟩

theorem valid_of_positions (positions : Positions q.size q.head q.tail q.numEntries)
    (initialized : q.initialized) : Valid q where
  head_nonneg := positions.head_nonneg
  head_lt := positions.head_lt
  tail_nonneg := positions.tail_nonneg
  tail_lt := positions.tail_lt
  entries_nonneg := positions.count_nonneg
  entries_le := positions.count_le
  tail_eq := positions.tail_eq
  initialized := initialized

theorem Valid.size_pos (valid : Valid q) : 0 < q.size :=
  valid.positions.size_pos

theorem valid_of_head_zero (head : q.head = 0) (tail : q.tail = q.numEntries)
    (nonneg : 0 ≤ q.numEntries) (room : q.numEntries < q.size)
    (initialized : q.initialized) : Valid q := by
  refine valid_of_positions ⟨by omega, by omega, nonneg, room.le, ?_⟩ initialized
  rw [head, tail, zero_add, Int.emod_eq_of_lt nonneg room]

theorem valid_of_queueInit {q₀ : Option Queue} {size : Int} {malloc : Option (Int → Int)}
    (initialised : queueInit q₀ size malloc = (.success, some q)) :
    Valid q ∧ q.size = size ∧ q.numEntries = 0 := by
  cases q₀ with
  | none => simp [queueInit] at initialised
  | some q₀ =>
    by_cases bad : size ≤ 0
    · simp [queueInit, bad] at initialised
    · cases malloc with
      | none => simp [queueInit, bad] at initialised
      | some values =>
        simp only [queueInit, bad, if_false, Prod.mk.injEq, true_and, some.injEq] at initialised
        subst initialised
        refine ⟨valid_of_head_zero rfl rfl (Int.le_refl 0) ?_ rfl, rfl, rfl⟩
        exact Int.not_le.mp bad

def Queue.pushed (q : Queue) (value : Int) : Queue :=
  { q with
    values := update q.values q.tail value
    tail := (q.tail + 1).tmod q.size
    numEntries := q.numEntries + 1 }

def Queue.popped (q : Queue) : Queue :=
  { q with
    head := (q.head + 1).tmod q.size
    numEntries := q.numEntries - 1 }

theorem queueEnqueue_of_valid (valid : Valid q) (value : Int) : queueEnqueue (some q) value =
      if q.numEntries = q.size then (.errorFull, some q)
      else (.success, some (q.pushed value)) := by
  simp [queueEnqueue, valid.initialized, queueFull, Queue.pushed]

theorem queueDequeue_of_valid (valid : Valid q) : queueDequeue (some q) true =
      if q.numEntries = 0 then (.errorEmpty, none, some q)
      else (.success, some (q.values q.head), some q.popped) := by
  simp [queueDequeue, valid.initialized, queueEmpty, Queue.popped]

theorem Valid.pushed (valid : Valid q) (notFull : q.numEntries ≠ q.size) (value : Int) :
    Valid (q.pushed value) :=
  valid_of_positions (valid.positions.push notFull) valid.initialized

/-- The bounds of the counters without the relation to `tail`. -/
structure Bounded (q : Queue) : Prop where
  head_nonneg : 0 ≤ q.head
  head_lt : q.head < q.size
  entries_nonneg : 0 ≤ q.numEntries
  entries_le : q.numEntries ≤ q.size

theorem RepInvariant.bounded (invariant : RepInvariant q) : Bounded q :=
  ⟨invariant.head_nonneg, invariant.head_lt, invariant.entries_nonneg, invariant.entries_le⟩

theorem Bounded.head_popped (bounded : Bounded q) : q.popped.head = (q.head + 1) % q.size :=
  Int.tmod_eq_emod_of_nonneg (Int.le_add_one bounded.head_nonneg)

theorem Bounded.popped (bounded : Bounded q) (notEmpty : q.numEntries ≠ 0) : Bounded q.popped := by
  have positive : 0 < q.size := lt_of_le_of_lt bounded.head_nonneg bounded.head_lt
  have nonneg := bounded.entries_nonneg
  have entriesLe := bounded.entries_le
  constructor
  · rw [bounded.head_popped]
    exact Int.emod_nonneg _ (by omega)
  · rw [bounded.head_popped]
    exact Int.emod_lt_of_pos _ positive
  · simp only [Queue.popped]
    omega
  · simp only [Queue.popped]
    omega

theorem Valid.popped (valid : Valid q) (notEmpty : q.numEntries ≠ 0) : Valid q.popped :=
  valid_of_positions (valid.positions.pop notEmpty) valid.initialized

theorem Valid.cleared (valid : Valid q) : Valid { q with head := 0, tail := 0, numEntries := 0 } :=
  valid_of_head_zero rfl rfl (Int.le_refl 0) valid.size_pos valid.initialized

theorem queueDequeue_of_entries (initialized : q.initialized) (notEmpty : q.numEntries ≠ 0) :
    queueDequeue (some q) true = (.success, some (q.values q.head), some q.popped) := by
  simp [queueDequeue, initialized, queueEmpty, notEmpty, Queue.popped]

theorem drain_spec (bounded : Bounded q) (initialized : q.initialized) {count : Nat}
    (entries : q.numEntries = count) (newValues : Int → Int) (moved : Nat) {newSize : Int}
    (room : moved + count ≤ newSize) :
    ∃ (drained : Queue) (values : Int → Int), (∀ bound, drain bound q newValues moved =
        if count ≤ bound then some (drained, values, (moved + count : Int)) else none) ∧
      drained.numEntries = 0 ∧ drained.initialized ∧
      window values newSize 0 (moved + count) =
        window newValues newSize 0 moved ++ window q.values q.size q.head count := by
  induction count generalizing q newValues moved with
  | zero =>
    have empty : queueEmpty q := by simp [queueEmpty, entries]
    refine ⟨q, newValues, fun bound => ?_, entries, initialized, by simp⟩
    cases bound <;> simp [drain, empty]
  | succ count ih =>
    have notEmpty : q.numEntries ≠ 0 := by omega
    have poppedEntries : q.popped.numEntries = count := by
      simp only [Queue.popped]
      omega
    have cast : ((moved + 1 : Nat) : Int) = moved + 1 := by omega
    obtain ⟨drained, values, drainEq, drainedEmpty, stillInitialized, contents⟩ :=
      ih (bounded.popped notEmpty) initialized poppedEntries
        (update newValues moved (q.values q.head)) (moved + 1) (by omega)
    refine ⟨drained, values, fun bound => ?_, drainedEmpty, stillInitialized, ?_⟩
    · cases bound with
      | zero => simp [drain, queueEmpty, notEmpty]
      | succ bound =>
        simp only [drain, queueEmpty, notEmpty, decide_false, Bool.false_eq_true,
          if_false, queueDequeue_of_entries initialized notEmpty]
        rw [← cast, drainEq, cast, Int.add_right_comm, Int.add_assoc]
        simp only [Nat.add_le_add_iff_right, Nat.cast_add, Nat.cast_one]
    · have first := window_succ q.values count bounded.head_nonneg bounded.head_lt
      have written := window_append newValues newSize 0 moved (by omega) (q.values q.head)
      have here : ((0 : Int) + moved) % newSize = moved := by
        rw [zero_add]
        exact Int.emod_eq_of_lt (by omega) (by omega)
      rw [here] at written
      rw [Nat.add_right_comm moved 1 count, Nat.add_assoc, written] at contents
      rw [contents, first, bounded.head_popped, append_assoc, singleton_append]
      rfl

theorem queueResize_spec (bounded : Bounded q) (initialized : q.initialized)
    (newSize : Int) (malloc : Option (Int → Int)) :
    (∃ code, code ≠ .success ∧ queueResize (some q) newSize malloc = some (code, some q)) ∧
        (newSize ≤ 0 ∨ newSize < q.numEntries ∨ malloc = none) ∨
      0 < newSize ∧ q.numEntries ≤ newSize ∧
        ∃ (newValues : Int → Int) (drained : Queue) (values : Int → Int),
        malloc = some newValues ∧
        (∀ bound, drain bound q newValues 0 =
          if q.numEntries ≤ bound then some (drained, values, q.numEntries) else none) ∧
        drained.numEntries = 0 ∧ drained.initialized ∧
        window values newSize 0 q.numEntries.toNat =
          window q.values q.size q.head q.numEntries.toNat ∧
        queueResize (some q) newSize malloc = some (.success, some { drained with
            values := values
            size := newSize
            head := 0
            tail := q.numEntries
            numEntries := q.numEntries }) := by
  by_cases bad : newSize ≤ 0
  · refine .inl ⟨⟨.errorInvalid, by decide, ?_⟩, .inl bad⟩
    simp [queueResize, bad]
  by_cases small : newSize < q.numEntries
  · refine .inl ⟨⟨.errorInvalid, by decide, ?_⟩, .inr (.inl small)⟩
    simp [queueResize, bad, initialized, small]
  cases malloc with
  | none =>
    refine .inl ⟨⟨.errorMemory, by decide, ?_⟩, .inr (.inr rfl)⟩
    simp [queueResize, bad, initialized, small]
  | some newValues =>
    have nonneg := bounded.entries_nonneg
    obtain ⟨count, entries⟩ := Int.eq_ofNat_of_zero_le nonneg
    obtain ⟨drained, values, drainEq, drainedEmpty, stillInitialized, contents⟩ :=
      drain_spec bounded initialized entries newValues 0 (show _ ≤ newSize by omega)
    have toNat : q.numEntries.toNat = count := by omega
    simp only [Nat.zero_add, Int.zero_add, Nat.cast_zero, ← entries, window_zero,
      nil_append] at drainEq contents
    refine .inr ⟨by omega, by omega, newValues, drained, values, rfl, ?_, drainedEmpty,
      stillInitialized, by rw [toNat]; exact contents, ?_⟩
    · intro bound
      rw [drainEq, entries]
      simp only [Int.ofNat_le]
    · simp [queueResize, bad, initialized, small, drainEq, toNat]

theorem queueResize_of_valid (valid : Valid q) (newSize : Int) (malloc : Option (Int → Int)) :
    (∃ code, queueResize (some q) newSize malloc = some (code, some q)) ∧
        (newSize ≤ 0 ∨ newSize < q.numEntries ∨ malloc = none) ∨
      ∃ resized, queueResize (some q) newSize malloc = some (.success, some resized) ∧
        0 < newSize ∧ q.numEntries ≤ newSize ∧ malloc ≠ none ∧
        resized.head = 0 ∧ resized.tail = q.numEntries ∧
          resized.numEntries = q.numEntries ∧ resized.size = newSize ∧ resized.initialized := by
  rcases queueResize_spec valid.bounded valid.initialized newSize malloc with
    ⟨⟨code, -, failed⟩, refused⟩ | ⟨positive, fits, newValues, drained, values, rfl, -, -,
      initialized, -, succeeded⟩
  · exact .inl ⟨⟨code, failed⟩, refused⟩
  · exact .inr ⟨_, succeeded, positive, fits, nofun, rfl, rfl, rfl, rfl, initialized⟩

/-- A resize that gets memory is not to the number of entries. -/
def ResizeLeavesRoom (q : Queue) (request : Request) : Prop :=
  ∀ newSize values, request = ⟨false, .resize newSize (some values)⟩ →
    0 < newSize → newSize ≠ q.numEntries

theorem Valid.step {next : Queue} {request : Request} {reply : Reply} (valid : Valid q)
    (room : ResizeLeavesRoom q request) (stepEq : step q request = some (next, reply)) :
    Valid next := by
  obtain ⟨onNull, call⟩ := request
  cases onNull with
  | true =>
    simp only [CircularQueue.step, if_true, map_eq_some_iff, Prod.mk.injEq] at stepEq
    obtain ⟨_, -, rfl, -⟩ := stepEq
    exact valid
  | false =>
    simp only [CircularQueue.step, Bool.false_eq_true, if_false,
      bind_eq_some_iff, map_eq_some_iff, Prod.mk.injEq] at stepEq
    obtain ⟨outcome, called, result, resultEq, rfl, -⟩ := stepEq
    cases call with
    | enqueue value =>
      simp only [callOn, queueEnqueue_of_valid valid, some.injEq] at called
      subst called
      by_cases full : q.numEntries = q.size
      · simp only [full, if_true, some.injEq] at resultEq
        exact resultEq ▸ valid
      · simp only [full, if_false, some.injEq] at resultEq
        exact resultEq ▸ valid.pushed full value
    | dequeue given =>
      cases given with
      | false =>
        simp only [callOn, queueDequeue, Bool.not_false, Bool.or_true,
          if_true, some.injEq] at called
        subst called
        exact some.inj resultEq ▸ valid
      | true =>
        simp only [callOn, queueDequeue_of_valid valid, some.injEq] at called
        subst called
        by_cases empty : q.numEntries = 0
        · simp only [empty, if_true, some.injEq] at resultEq
          exact resultEq ▸ valid
        · simp only [empty, if_false, some.injEq] at resultEq
          exact resultEq ▸ valid.popped empty
    | peek =>
      simp only [callOn, some.injEq] at called
      subst called
      exact some.inj resultEq ▸ valid
    | size =>
      simp only [callOn, map_eq_some_iff] at called
      obtain ⟨_, -, rfl⟩ := called
      exact some.inj resultEq ▸ valid
    | clear =>
      simp only [callOn, queueClear, valid.initialized, Bool.not_true,
        Bool.false_eq_true, if_false, some.injEq] at called
      subst called
      have cleared := valid.cleared
      simp only [valid.initialized] at cleared
      exact some.inj resultEq ▸ cleared
    | resize newSize malloc =>
      simp only [callOn, map_eq_some_iff] at called
      obtain ⟨returned, returnedEq, rfl⟩ := called
      rcases queueResize_of_valid valid newSize malloc with
        ⟨⟨code, failed⟩, -⟩ | ⟨resized, succeeded, positive, fits, given,
          head, tail, entries, size, initialized⟩
      · rw [failed, some.injEq] at returnedEq
        subst returnedEq
        exact some.inj resultEq ▸ valid
      · rw [succeeded, some.injEq] at returnedEq
        subst returnedEq
        obtain ⟨values, rfl⟩ := ne_none_iff_exists'.mp given
        have different := room newSize values rfl positive
        have nonneg := valid.entries_nonneg
        have resizedValid : Valid resized :=
          valid_of_head_zero head (by omega) (by omega) (by omega) initialized
        exact some.inj resultEq ▸ resizedValid

theorem resize_to_entries_breaks {request : Request} (valid : Valid q)
    (noRoom : ¬ ResizeLeavesRoom q request) :
    ∃ next reply, step q request = some (next, reply) ∧ ¬ RepInvariant next := by
  simp only [ResizeLeavesRoom, not_forall, ne_eq, not_not] at noRoom
  obtain ⟨newSize, values, rfl, positive, same⟩ := noRoom
  rcases queueResize_of_valid valid newSize (some values) with
    ⟨-, excluded⟩ | ⟨resized, succeeded, -, -, -, -, tail, -, size, -⟩
  · rcases excluded with bad | small | failed
    · omega
    · omega
    · cases failed
  · refine ⟨resized, .code .success none, ?_, ?_⟩
    · simp [CircularQueue.step, callOn, succeeded]
    · intro kept
      have := kept.tail_lt
      omega

/-- The invariant is kept exactly if no resize asks for just the number of stored entries. -/
theorem invariant_kept_iff_resizes_leave_room (q₀ : Option Queue) (size : Int)
    (malloc : Option (Int → Int)) (q : Queue)
    (initialised : queueInit q₀ size malloc = (.success, some q)) (requests : List Request) :
    (∀ initial, initial <+: requests → ∀ reached,
        Reaches step q initial reached → RepInvariant reached) ↔
      Respects step ResizeLeavesRoom q requests :=
  always_iff_respects Valid RepInvariant (fun valid => valid.toRepInvariant)
    (fun valid room stepEq => valid.step room stepEq)
    (fun valid noRoom => resize_to_entries_breaks valid noRoom)
    (valid_of_queueInit initialised).1 requests

def fillAndGrow : List Request :=
  [⟨false, .enqueue 7⟩, ⟨false, .enqueue 8⟩, ⟨false, .resize 4 (some fun _ => 0)⟩]

theorem invariant_kept_by_growing_resize :
    ∃ reached, Reaches step ⟨fun _ => 0, 0, 0, 0, 2, true⟩ fillAndGrow reached ∧
      reached.size = 4 ∧ RepInvariant reached := by
  have kept := (invariant_kept_iff_resizes_leave_room (some ⟨fun _ => 0, 0, 0, 0, 0, false⟩) 2
    (some fun _ => 0) _ rfl fillAndGrow).mpr (.cons nofun rfl (.cons nofun rfl
      (.cons (by rintro _ _ ⟨rfl⟩ -; decide) rfl trivial)))
  exact ⟨_, ⟨_, rfl⟩, rfl, kept _ prefix_rfl _ ⟨_, rfl⟩⟩

theorem resize_to_entries_moves_tail_out_of_range :
    queueInit (some ⟨fun _ => 0, 0, 0, 0, 0, false⟩) 4 (some fun _ => 0) =
        (.success, some ⟨fun _ => 0, 0, 0, 0, 4, true⟩) ∧
      ¬ ∀ reached, Reaches step ⟨fun _ => 0, 0, 0, 0, 4, true⟩
          [⟨false, .enqueue 1⟩, ⟨false, .enqueue 2⟩, ⟨false, .resize 2 (some fun _ => 0)⟩] reached →
        RepInvariant reached := by
  refine ⟨rfl, fun always => ?_⟩
  have kept := always _ ⟨_, rfl⟩
  exact absurd kept.tail_lt (by decide)

end BitsAndBytes.CircularQueue
