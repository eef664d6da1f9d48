import BitsAndBytes.CircularQueueRuns

/-! # The circular queue as a bounded first-in first-out list -/

namespace BitsAndBytes.CircularQueue

open OperationRuns RingWindow

/-- The calls other than `queue_resize`. -/
inductive FifoCall
  | enqueue (value : Int)
  | dequeue (result : Bool)
  | peek
  | size
  | clear
deriving DecidableEq, Repr

def FifoCall.request : FifoCall → Request
  | .enqueue value => ⟨false, .enqueue value⟩
  | .dequeue result => ⟨false, .dequeue result⟩
  | .peek => ⟨false, .peek⟩
  | .size => ⟨false, .size⟩
  | .clear => ⟨false, .clear⟩

def fifoCall (q : Queue) (call : FifoCall) : Option (Queue × Reply) :=
  step q call.request

def boundedList (capacity : Int) (items : List Int) : FifoCall → Option (List Int × Reply)
  | .enqueue value =>
    if (items.length : Int) = capacity then
      some (items, .code .errorFull none)
    else
      some (items ++ [value], .code .success none)
  | .dequeue false => some (items, .code .errorInvalid none)
  | .dequeue true =>
    match items with
    | [] => some ([], .code .errorEmpty none)
    | oldest :: rest => some (rest, .code .success (some oldest))
  | .peek => some (items, .value (items.head?.getD queueEmptyValue))
  | .size => some (items, .value items.length)
  | .clear => some ([], .code .success none)

def Queue.items (q : Queue) : List Int :=
  window q.values q.size q.head q.numEntries.toNat

/-- The queue holds the items in this order. -/
structure Stores (capacity : Int) (q : Queue) (items : List Int) : Prop where
  valid : Valid q
  size_eq : q.size = capacity
  items_eq : q.items = items

variable {capacity : Int} {q : Queue} {items : List Int}

theorem Stores.length_eq (stores : Stores capacity q items) :
    (items.length : Int) = q.numEntries := by
  rw [← stores.items_eq, Queue.items, length_window]
  exact Int.toNat_of_nonneg stores.valid.entries_nonneg

theorem items_pushed (valid : Valid q) (notFull : q.numEntries ≠ q.size)
    (value : Int) : (q.pushed value).items = q.items ++ [value] :=
  valid.positions.window_push q.values notFull value

theorem items_popped (valid : Valid q) (notEmpty : q.numEntries ≠ 0) :
    q.items = q.values q.head :: q.popped.items :=
  valid.positions.window_pop q.values notEmpty

section

variable (stores : Stores capacity q items)
include stores

theorem Stores.items_eq_nil (empty : q.numEntries = 0) : items = [] := by
  apply List.eq_nil_of_length_eq_zero
  have lengthEq := stores.length_eq
  omega

theorem Stores.items_eq_cons
    (notEmpty : q.numEntries ≠ 0) : items = q.values q.head :: q.popped.items := by
  rw [← stores.items_eq]
  exact items_popped stores.valid notEmpty

theorem fifoCall_refines (call : FifoCall) :
    ∃ next nextItems reply, fifoCall q call = some (next, reply) ∧
      boundedList capacity items call = some (nextItems, reply) ∧
        Stores capacity next nextItems := by
  have valid := stores.valid
  have lengthEq := stores.length_eq
  have sizeEq := stores.size_eq
  cases call with
  | enqueue value =>
    by_cases full : q.numEntries = q.size
    · refine ⟨q, items, .code .errorFull none, ?_, ?_, stores⟩
      · simp [fifoCall, FifoCall.request, step, callOn, queueEnqueue_of_valid valid, full]
      · rw [boundedList, if_pos (by omega)]
    · refine ⟨q.pushed value, items ++ [value], .code .success none, ?_, ?_, ?_⟩
      · simp [fifoCall, FifoCall.request, step, callOn, queueEnqueue_of_valid valid, full]
      · rw [boundedList, if_neg (by omega)]
      · refine ⟨valid.pushed full value, sizeEq, ?_⟩
        rw [items_pushed valid full, stores.items_eq]
  | dequeue result =>
    cases result with
    | false =>
      refine ⟨q, items, .code .errorInvalid none, ?_, rfl, stores⟩
      simp [fifoCall, FifoCall.request, step, callOn, queueDequeue]
    | true =>
      by_cases empty : q.numEntries = 0
      · have noItems := stores.items_eq_nil empty
        subst noItems
        refine ⟨q, [], .code .errorEmpty none, ?_, rfl, stores⟩
        simp [fifoCall, FifoCall.request, step, callOn, queueDequeue_of_valid valid, empty]
      · have split := stores.items_eq_cons empty
        subst split
        refine ⟨q.popped, q.popped.items,
          .code .success (some (q.values q.head)), ?_, rfl, valid.popped empty, sizeEq, rfl⟩
        simp [fifoCall, FifoCall.request, step, callOn, queueDequeue_of_valid valid, empty]
  | peek =>
    by_cases empty : q.numEntries = 0
    · have noItems := stores.items_eq_nil empty
      subst noItems
      refine ⟨q, [], .value queueEmptyValue, ?_, rfl, stores⟩
      simp [fifoCall, FifoCall.request, step, callOn, queuePeek, queueEmpty, empty]
    · have split := stores.items_eq_cons empty
      subst split
      refine ⟨q, _, .value (q.values q.head), ?_, rfl, stores⟩
      simp [fifoCall, FifoCall.request, step, callOn, queuePeek, queueEmpty,
        empty, valid.initialized]
  | size =>
    refine ⟨q, items, .value items.length, ?_, rfl, stores⟩
    simp [fifoCall, FifoCall.request, step, callOn, queueSize, valid.initialized, lengthEq]
  | clear =>
    refine ⟨{ q with head := 0, tail := 0, numEntries := 0 }, [],
      .code .success none, ?_, rfl, valid.cleared, sizeEq, rfl⟩
    simp [fifoCall, FifoCall.request, step, callOn, queueClear, valid.initialized]

end

theorem fifoCall_error_unchanged (valid : Valid q) {call : FifoCall}
    {next : Queue} {code : QueueError} {stored : Option Int}
    (called : fifoCall q call = some (next, .code code stored))
    (failed : code ≠ .success) : next = q ∧ stored = none := by
  cases call with
  | enqueue value =>
    by_cases full : q.numEntries = q.size <;>
      simp [fifoCall, FifoCall.request, step, callOn, queueEnqueue_of_valid valid, full] at called
    · exact ⟨called.1.symm, called.2.2.symm⟩
    · exact absurd called.2.1.symm failed
  | dequeue result =>
    cases result with
    | false =>
      simp [fifoCall, FifoCall.request, step, callOn, queueDequeue] at called
      exact ⟨called.1.symm, called.2.2.symm⟩
    | true =>
      by_cases empty : q.numEntries = 0 <;>
        simp [fifoCall, FifoCall.request, step, callOn,
          queueDequeue_of_valid valid, empty] at called
      · exact ⟨called.1.symm, called.2.2.symm⟩
      · exact absurd called.2.1.symm failed
  | peek => simp [fifoCall, FifoCall.request, step, callOn] at called
  | size => simp [fifoCall, FifoCall.request, step, callOn, queueSize, valid.initialized] at called
  | clear =>
    simp [fifoCall, FifoCall.request, step, callOn, queueClear, valid.initialized] at called
    exact absurd called.2.1.symm failed

/-- Every sequence of calls returns what the bounded list returns; errors change nothing. -/
theorem queue_answers_as_bounded_list (q₀ : Option Queue) (capacity : Int)
    (malloc : Option (Int → Int)) (q : Queue)
    (initialised : queueInit q₀ capacity malloc = (.success, some q)) (calls : List FifoCall) :
    ∃ finish items replies, run fifoCall q calls = some (finish, replies) ∧
        run (boundedList capacity) [] calls = some (items, replies) ∧
          ∀ call next code stored, fifoCall finish call = some (next, .code code stored) →
              code ≠ .success → next = finish ∧ stored = none := by
  obtain ⟨valid, sizeEq, empty⟩ := valid_of_queueInit initialised
  have initially : Stores capacity q [] := ⟨valid, sizeEq, by simp [Queue.items, empty]⟩
  have respected : Respects fifoCall (fun _ _ => True) q calls :=
    respects_of_forall (fun _ _ => trivial) q calls
  obtain ⟨finish, items, replies, runEq, listEq, stores⟩ := run_refines (Stores capacity)
      (fun {_ _ call} stores _ => fifoCall_refines stores call) respected initially
  exact ⟨finish, items, replies, runEq, listEq, fun _ _ _ _ called failed =>
    fifoCall_error_unchanged stores.valid called failed⟩

theorem queue_answers_as_bounded_list_of_two :
    queueInit (some ⟨fun _ => 0, 0, 0, 0, 0, false⟩) 2 (some fun _ => 0) =
        (.success, some ⟨fun _ => 0, 0, 0, 0, 2, true⟩) ∧
      ∃ finish items replies, run fifoCall ⟨fun _ => 0, 0, 0, 0, 2, true⟩
            [.enqueue 5, .enqueue 6, .enqueue 7, .dequeue true, .peek, .size] =
          some (finish, replies) ∧
        run (boundedList 2) []
            [.enqueue 5, .enqueue 6, .enqueue 7, .dequeue true, .peek, .size] =
          some (items, replies) ∧
        ∀ call next code stored, fifoCall finish call = some (next, .code code stored) →
            code ≠ .success → next = finish ∧ stored = none :=
  ⟨rfl, queue_answers_as_bounded_list
    (some ⟨fun _ => 0, 0, 0, 0, 0, false⟩) 2 (some fun _ => 0) _ rfl _⟩

/-- A `queue_resize` fails without effect, or keeps the elements and their order. -/
theorem resize_keeps_items_or_fails (q : Queue) (bounded : Bounded q) (newSize : Int)
    (malloc : Option (Int → Int)) :
    ((q.initialized = false ∨ newSize ≤ 0 ∨ newSize < q.numEntries ∨ malloc = none) ∧
      ∃ code, code ≠ .success ∧ queueResize (some q) newSize malloc = some (code, some q)) ∨
    (q.initialized ∧ 0 < newSize ∧ q.numEntries ≤ newSize) ∧
      ∃ (newValues : Int → Int) (drained : Queue) (values : Int → Int) (resized : Queue),
        malloc = some newValues ∧
        (∀ bound, drain bound q newValues 0 =
          if q.numEntries ≤ bound then some (drained, values, q.numEntries) else none) ∧
        drained.numEntries = 0 ∧
        queueResize (some q) newSize malloc = some (.success, some resized) ∧
        resized.size = newSize ∧ resized.numEntries = q.numEntries ∧ resized.items = q.items := by
  cases initialized : q.initialized with
  | false =>
    refine .inl ⟨.inl rfl, .errorInvalid, by decide, ?_⟩
    simp [queueResize, initialized]
  | true =>
    rcases queueResize_spec bounded initialized newSize malloc with
      ⟨failed, refused⟩ | ⟨positive, fits, newValues, drained, values, given, drainEq,
        drainedEmpty, -, contents, succeeded⟩
    · exact .inl ⟨.inr refused, failed⟩
    · exact .inr ⟨⟨rfl, positive, fits⟩, newValues, drained, values, _, given, drainEq,
        drainedEmpty, succeeded, rfl, rfl, contents⟩

theorem resize_keeps_wrapped_items :
    ∃ resized, queueResize (some ⟨fun index => index * 10, 3, 2, 3, 4, true⟩) 5
        (some fun _ => 0) = some (.success, some resized) ∧
      resized.size = 5 ∧ resized.items = [30, 0, 10] := by
  have bounded : Bounded ⟨fun index => index * 10, 3, 2, 3, 4, true⟩ :=
    ⟨by decide, by decide, by decide, by decide⟩
  rcases resize_keeps_items_or_fails _ bounded 5 (some fun _ => 0) with
    ⟨refused, -⟩ | ⟨-, _, _, _, resized, -, -, -, succeeded, size, -, items⟩
  · simp at refused
  · exact ⟨resized, succeeded, size, items⟩

end BitsAndBytes.CircularQueue
