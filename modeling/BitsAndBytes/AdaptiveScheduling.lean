import BitsAndBytes.OperationRuns
import BitsAndBytes.RingQueue
import Mathlib.Data.List.Perm.Basic

/-! # The scheduler of `AdaptiveThread-AwareScheduling.c` -/

namespace BitsAndBytes.AdaptiveScheduling

open OperationRuns RingWindow List Option

def maxQueueSize : Int := 100

structure MemoryRequest where
  address : Int
  timestamp : Int
  threadId : Nat
deriving DecidableEq, Repr

abbrev Queue := RingQueue MemoryRequest

def initQueue (requests : Int → MemoryRequest) : Queue :=
  RingQueue.empty requests

def enqueue (q : Queue) (request : MemoryRequest) : Queue :=
  q.push maxQueueSize request

def dequeue (q : Queue) : Option (MemoryRequest × Queue) :=
  q.pop maxQueueSize

def select (q : Queue) (priority : Nat → Int) (count : Nat) : Int × Int :=
  (List.range count).foldl (fun best (i : Nat) =>
    let index := (q.front + i).tmod maxQueueSize
    let candidate := priority (q.cells index).threadId
    if best.1 < candidate then (candidate, index) else best) (0, -1)

def scheduleRequest (q : Queue) (priority : Nat → Int) : Option (MemoryRequest × Queue) :=
  if q.size = 0 then
    none
  else
    let selectedIndex := (select q priority q.size.toNat).2
    if selectedIndex = -1 then
      dequeue q
    else
      q.remove maxQueueSize selectedIndex

inductive Call
  | enqueue (request : MemoryRequest)
  | scheduleRequest (priority : Nat → Int)

inductive Reply
  | accepted (request : MemoryRequest)
  | full
  | returned (request : MemoryRequest)
deriving DecidableEq, Repr

def step (q : Queue) : Call → Option (Queue × Reply)
  | .enqueue request =>
    some (enqueue q request, if q.size = maxQueueSize then .full else .accepted request)
  | .scheduleRequest priority =>
    (scheduleRequest q priority).map fun scheduled =>
      (scheduled.2, .returned scheduled.1)

/-- A request is scheduled only while the queue has one. -/
def NotEmpty (q : Queue) : Call → Prop
  | .enqueue _ => True
  | .scheduleRequest _ => q.size ≠ 0

def Reply.request? : Reply → Option MemoryRequest
  | accepted request => some request
  | full | returned _ => none

def Reply.returned? : Reply → Option MemoryRequest
  | returned request => some request
  | full | accepted _ => none

def accepted (replies : List Reply) : List MemoryRequest :=
  replies.filterMap Reply.request?

def returned (replies : List Reply) : List MemoryRequest :=
  replies.filterMap Reply.returned?

def ofThread (thread : Nat) (requests : List MemoryRequest) : List MemoryRequest :=
  requests.filter fun request => request.threadId = thread

section

variable {q : Queue}

def priorityAt (q : Queue) (priority : Nat → Int) (offset : Nat) : Int :=
  priority (q.cells ((q.front + offset) % maxQueueSize)).threadId

theorem select_spec (valid : q.Valid maxQueueSize) (priority : Nat → Int) (count : Nat) :
    (∀ j < count, priorityAt q priority j ≤ (select q priority count).1) ∧
      (select q priority count = (0, -1) ∨ ∃ k < count, select q priority count =
            (priorityAt q priority k, (q.front + k) % maxQueueSize) ∧
          ∀ j < k, priorityAt q priority j < priorityAt q priority k) := by
  have front_nonneg := valid.front_nonneg
  induction count with
  | zero => exact ⟨nofun, .inl rfl⟩
  | succ count ih =>
    obtain ⟨low, selected⟩ := ih
    have next : select q priority (count + 1) =
        if (select q priority count).1 < priorityAt q priority count then
          (priorityAt q priority count, (q.front + count) % maxQueueSize)
        else select q priority count := by
      rw [select, range_succ, foldl_append]
      simp only [foldl_cons, foldl_nil,
        Int.tmod_eq_emod_of_nonneg (show 0 ≤ q.front + count by omega)]
      rfl
    rw [next]
    split
    · rename_i higher
      refine ⟨fun j below => ?_, .inr ⟨count, by omega, rfl, fun j below => ?_⟩⟩
      · rcases Nat.lt_succ_iff_lt_or_eq.mp below with before | rfl
        · exact (Int.lt_of_le_of_lt (low j before) higher).le
        · exact Int.le_refl _
      · exact Int.lt_of_le_of_lt (low j below) higher
    · rename_i notHigher
      refine ⟨fun j below => ?_, ?_⟩
      · rcases Nat.lt_succ_iff_lt_or_eq.mp below with before | rfl
        · exact low j before
        · exact Int.not_lt.mp notHigher
      · rcases selected with nothing | ⟨k, inside, isSelected, earlier⟩
        · exact .inl nothing
        · exact .inr ⟨k, by omega, isSelected, earlier⟩

variable {priority : Nat → Int} {k : Nat}

theorem notEmpty_of_scheduleRequest {scheduled : MemoryRequest × Queue}
    (returned : scheduleRequest q priority = some scheduled) : q.size ≠ 0 := by
  intro empty
  rw [scheduleRequest, if_pos empty] at returned
  cases returned

theorem priorityAt_eq (priority : Nat → Int) {offset : Nat}
    (inside : offset < (q.contents maxQueueSize).length) :
    priorityAt q priority offset = priority (q.contents maxQueueSize)[offset].threadId := by
  simp only [RingQueue.contents, RingQueue.getElem_window]
  rfl

theorem lower_of_mem_take (inside : k < (q.contents maxQueueSize).length)
    (earlier : ∀ j < k, priorityAt q priority j < priorityAt q priority k) :
    ∀ request ∈ (q.contents maxQueueSize).take k,
      priority request.threadId < priority (q.contents maxQueueSize)[k].threadId := by
  intro request member
  obtain ⟨j, below, rfl⟩ := mem_take_iff_getElem.mp member
  rw [← priorityAt_eq priority inside, ← priorityAt_eq priority]
  exact earlier j (by omega)

theorem scheduleRequest_of_select (valid : q.Valid maxQueueSize) (priority : Nat → Int)
    (inside : k < (q.contents maxQueueSize).length)
    (selected : (select q priority q.size.toNat).2 = (q.front + k) % maxQueueSize) :
    ∃ rest, scheduleRequest q priority = some ((q.contents maxQueueSize)[k], rest) ∧
      rest.Valid maxQueueSize ∧ rest.contents maxQueueSize =
          (q.contents maxQueueSize).take k ++ (q.contents maxQueueSize).drop (k + 1) ∧
          rest.rear = (rest.front + rest.size - 1) % maxQueueSize := by
  have notEmpty : q.size ≠ 0 := by
    intro empty
    rw [valid.contents_eq_nil_iff.mpr empty] at inside
    cases inside
  have notNone : (q.front + k) % maxQueueSize ≠ -1 := by
    have := Int.emod_nonneg (q.front + k) valid.capacity_pos.ne.symm
    omega
  obtain ⟨rest, removed, restValid, contents⟩ := valid.remove inside
  refine ⟨rest, ?_, restValid, ?_, ?_⟩
  · rw [scheduleRequest, if_neg notEmpty, selected]
    simp only [if_neg notNone]
    exact removed
  · rw [contents, eraseIdx_eq_take_drop_succ]
  · exact restValid.rear_of_nonneg (valid.rear_remove notEmpty removed)

theorem scheduleRequest_spec (valid : q.Valid maxQueueSize) (notEmpty : q.size ≠ 0)
    (priority : Nat → Int) :
    ∃ before request after rest, scheduleRequest q priority = some (request, rest) ∧
      rest.Valid maxQueueSize ∧ q.contents maxQueueSize = before ++ request :: after ∧
          rest.contents maxQueueSize = before ++ after ∧
            ∀ earlier ∈ before, priority earlier.threadId < priority request.threadId := by
  rcases (select_spec valid priority q.size.toNat).2 with nothing | ⟨k, inside, selected, earlier⟩
  · obtain ⟨request, rest, taken, restValid, contents⟩ := valid.pop notEmpty
    refine ⟨[], request, _, rest, ?_, restValid, contents, rfl, nofun⟩
    rw [scheduleRequest, if_neg notEmpty, nothing]
    exact taken
  · have within : k < (q.contents maxQueueSize).length := by
      rw [RingQueue.contents, length_window]
      exact inside
    obtain ⟨rest, scheduled, restValid, contents, -⟩ :=
      scheduleRequest_of_select valid priority within (by rw [selected])
    refine ⟨(q.contents maxQueueSize).take k, (q.contents maxQueueSize)[k],
      (q.contents maxQueueSize).drop (k + 1), rest, scheduled, restValid, ?_, contents, ?_⟩
    · rw [getElem_cons_drop, take_append_drop]
    · exact lower_of_mem_take within earlier

end

theorem ofThread_append (thread : Nat) (first second : List MemoryRequest) :
    ofThread thread (first ++ second) = ofThread thread first ++ ofThread thread second :=
  filter_append first second

theorem count_ofThread (request : MemoryRequest) (requests : List MemoryRequest) :
    (ofThread request.threadId requests).count request = requests.count request :=
  count_filter (by simp)

theorem perm_of_ofThread {first second : List MemoryRequest}
    (same : ∀ thread, ofThread thread first = ofThread thread second) : first.Perm second := by
  refine perm_iff_count.mpr fun request => ?_
  rw [← count_ofThread, same, count_ofThread]

theorem ofThread_returned (thread : Nat) {replies before after : List MemoryRequest}
    {request : MemoryRequest} (oldest : ∀ earlier ∈ before, earlier.threadId ≠ request.threadId) :
    ofThread thread (replies ++ [request] ++ (before ++ after)) =
      ofThread thread (replies ++ (before ++ request :: after)) := by
  by_cases mine : request.threadId = thread
  · have nothing : ofThread thread before = [] := by
      rw [ofThread, filter_eq_nil_iff]
      intro earlier member
      rw [decide_eq_true_eq, ← mine]
      exact oldest earlier member
    simp only [ofThread_append, nothing, nil_append]
    simp [ofThread, mine]
  · simp [ofThread, mine]

/-- For each thread the accepted requests are the returned ones followed by those in the queue. -/
structure InOrder (q : Queue) (replies : List Reply) : Prop where
  valid : q.Valid maxQueueSize
  same : ∀ thread, ofThread thread (accepted replies) =
    ofThread thread (returned replies ++ q.contents maxQueueSize)

section

variable {q next : Queue} {replies : List Reply} {call : Call} {reply : Reply}

theorem accepted_concat (replies : List Reply) (reply : Reply) :
    accepted (replies ++ [reply]) = accepted replies ++ reply.request?.toList := by
  cases reply <;> simp [accepted, Reply.request?]

theorem returned_concat (replies : List Reply) (reply : Reply) :
    returned (replies ++ [reply]) = returned replies ++ reply.returned?.toList := by
  cases reply <;> simp [returned, Reply.returned?]

theorem exists_step (valid : q.Valid maxQueueSize) (notEmpty : NotEmpty q call) :
    ∃ next reply, step q call = some (next, reply) ∧ next.Valid maxQueueSize := by
  cases call with
  | enqueue request => exact ⟨_, _, rfl, valid.push request⟩
  | scheduleRequest priority =>
    obtain ⟨-, request, -, rest, scheduled, restValid, -⟩ :=
      scheduleRequest_spec valid notEmpty priority
    exact ⟨rest, .returned request, by rw [step, scheduled]; rfl, restValid⟩

theorem InOrder.step (inOrder : InOrder q replies)
    (stepEq : AdaptiveScheduling.step q call = some (next, reply)) :
    InOrder next (replies ++ [reply]) := by
  obtain ⟨valid, same⟩ := inOrder
  cases call with
  | enqueue request =>
    cases stepEq
    refine ⟨valid.push request, fun thread => ?_⟩
    rw [returned_concat, accepted_concat]
    split
    · rename_i full
      rw [enqueue, RingQueue.push_of_full full]
      simpa [Reply.request?, Reply.returned?] using same thread
    · rename_i notFull
      rw [enqueue, valid.contents_push notFull, ofThread_append, same thread, ← ofThread_append]
      simp [Reply.request?, Reply.returned?]
  | scheduleRequest priority =>
    obtain ⟨⟨request, rest⟩, scheduled, taken⟩ := map_eq_some_iff.mp stepEq
    cases taken
    obtain ⟨before, chosen, after, others, isScheduled, restValid, contents, restContents,
      lower⟩ := scheduleRequest_spec valid (notEmpty_of_scheduleRequest scheduled) priority
    cases isScheduled.symm.trans scheduled
    refine ⟨restValid, fun thread => ?_⟩
    rw [returned_concat, accepted_concat, restContents]
    simp only [Reply.request?, Reply.returned?, toList_none, toList_some, append_nil]
    rw [ofThread_returned thread, ← contents]
    · exact same thread
    · intro earlier member sameThread
      have := lower earlier member
      rw [sameThread] at this
      exact absurd this (Int.lt_irrefl _)

end

/-- Every accepted request is returned once or still queued, those of each thread in order. -/
theorem requests_returned_once_in_order (requests : Int → MemoryRequest) (calls : List Call)
    (notEmpty : Respects step NotEmpty (initQueue requests) calls) :
    ∃ q replies, run step (initQueue requests) calls = some (q, replies) ∧
      (accepted replies).Perm (returned replies ++ q.contents maxQueueSize) ∧
        ∀ thread, ofThread thread (accepted replies) =
          ofThread thread (returned replies) ++ ofThread thread (q.contents maxQueueSize) := by
  have initially : (initQueue requests).Valid maxQueueSize :=
    RingQueue.valid_empty (by decide) requests
  obtain ⟨q, ⟨replies, runEq⟩, -⟩ := notEmpty.exists_reaches
    (fun q : Queue => q.Valid maxQueueSize) (fun valid guard => exists_step valid guard) initially
  have inOrder : InOrder q replies :=
    run_results InOrder (fun inOrder stepEq => inOrder.step stepEq) runEq
      ⟨initially, fun _ => rfl⟩
  refine ⟨q, replies, runEq, perm_of_ofThread inOrder.same, fun thread => ?_⟩
  rw [inOrder.same thread, ofThread_append]

theorem one_of_two_requests_scheduled : ∃ q replies, run step (initQueue fun _ => ⟨0, 0, 0⟩)
        [.enqueue ⟨10, 0, 0⟩, .enqueue ⟨20, 0, 1⟩, .scheduleRequest fun thread => thread] =
          some (q, replies) ∧
      (accepted replies).Perm (returned replies ++ q.contents maxQueueSize) ∧
        ∀ thread, ofThread thread (accepted replies) =
          ofThread thread (returned replies) ++ ofThread thread (q.contents maxQueueSize) := by
  refine requests_returned_once_in_order _ _ ⟨trivial, ?_⟩
  rintro _ _ ⟨⟩
  refine ⟨trivial, ?_⟩
  rintro _ _ ⟨⟩
  exact ⟨show (2 : Int) ≠ 0 by decide, fun _ _ _ => trivial⟩

inductive Operation
  | call (call : Call)
  | dequeue

def operate (q : Queue) : Operation → Option (Queue × Reply)
  | .call call => step q call
  | .dequeue => (dequeue q).map fun taken => (taken.2, .returned taken.1)

variable {q next : Queue} {reply : Reply}

theorem valid_step {call : Call} (valid : q.Valid maxQueueSize)
    (stepEq : step q call = some (next, reply)) : next.Valid maxQueueSize := by
  cases call with
  | enqueue request =>
    cases stepEq
    exact valid.push request
  | scheduleRequest priority =>
    obtain ⟨⟨request, rest⟩, scheduled, taken⟩ := map_eq_some_iff.mp stepEq
    cases taken
    obtain ⟨-, chosen, -, others, isScheduled, kept, -⟩ :=
      scheduleRequest_spec valid (notEmpty_of_scheduleRequest scheduled) priority
    cases isScheduled.symm.trans scheduled
    exact kept

theorem valid_operate {operation : Operation} (valid : q.Valid maxQueueSize)
    (operated : operate q operation = some (next, reply)) : next.Valid maxQueueSize := by
  cases operation with
  | call call => exact valid_step valid operated
  | dequeue =>
    obtain ⟨⟨request, rest⟩, taken, same⟩ := map_eq_some_iff.mp operated
    cases same
    have notEmpty : q.size ≠ 0 := by
      intro empty
      rw [dequeue, RingQueue.pop, if_pos empty] at taken
      cases taken
    obtain ⟨other, otherRest, popped, kept, -⟩ := valid.pop notEmpty
    cases popped.symm.trans taken
    exact kept

/-- The first request of the highest priority is removed, and the others keep their order. -/
theorem scheduleRequest_returns_first_of_highest {requests : Int → MemoryRequest}
    {operations : List Operation} {q : Queue}
    (reached : Reaches operate (initQueue requests) operations q) (notEmpty : q.size ≠ 0)
    {priority : Nat → Int} (positive : ∀ thread, 0 < priority thread) :
    ∃ before request after rest, scheduleRequest q priority = some (request, rest) ∧
      q.contents maxQueueSize = before ++ request :: after ∧
        (∀ earlier ∈ before, priority earlier.threadId < priority request.threadId) ∧
        (∀ later ∈ after, priority later.threadId ≤ priority request.threadId) ∧
          rest.contents maxQueueSize = before ++ after ∧
            rest.rear = (rest.front + rest.size - 1) % maxQueueSize := by
  have valid : q.Valid maxQueueSize := reached.invariant (fun q : Queue => q.Valid maxQueueSize)
      (fun valid operated => valid_operate valid operated)
      (RingQueue.valid_empty (by decide) requests)
  have length := valid.length_contents
  obtain ⟨low, nothing | ⟨k, inside, selected, earlier⟩⟩ := select_spec valid priority q.size.toNat
  · have first := low 0 (by omega)
    rw [nothing] at first
    exact absurd first (Int.not_le.mpr (positive _))
  · have within : k < (q.contents maxQueueSize).length := by omega
    rw [selected] at low
    obtain ⟨rest, scheduled, -, contents, rear⟩ :=
      scheduleRequest_of_select valid priority within (by rw [selected])
    refine ⟨(q.contents maxQueueSize).take k, (q.contents maxQueueSize)[k],
      (q.contents maxQueueSize).drop (k + 1), rest, scheduled, ?_, ?_, ?_, contents, rear⟩
    · rw [getElem_cons_drop, take_append_drop]
    · exact lower_of_mem_take within earlier
    · intro request member
      obtain ⟨j, below, rfl⟩ := mem_drop_iff_getElem.mp member
      rw [← priorityAt_eq priority within, ← priorityAt_eq priority]
      exact low (k + 1 + j) (by omega)

theorem second_request_has_highest_priority : ∃ q, Reaches operate (initQueue fun _ => ⟨0, 0, 0⟩)
        [.call (.enqueue ⟨10, 0, 0⟩), .call (.enqueue ⟨20, 0, 1⟩)] q ∧
      ∃ before request after rest,
        scheduleRequest q (fun thread => thread + 1) = some (request, rest) ∧
        q.contents maxQueueSize = before ++ request :: after ∧
          (∀ earlier ∈ before, (earlier.threadId : Int) + 1 < request.threadId + 1) ∧
          (∀ later ∈ after, (later.threadId : Int) + 1 ≤ request.threadId + 1) ∧
            rest.contents maxQueueSize = before ++ after ∧
              rest.rear = (rest.front + rest.size - 1) % maxQueueSize := by
  obtain ⟨q, reached, size⟩ : ∃ q, Reaches operate (initQueue fun _ => ⟨0, 0, 0⟩)
      [.call (.enqueue ⟨10, 0, 0⟩), .call (.enqueue ⟨20, 0, 1⟩)] q ∧ q.size = 2 :=
    ⟨_, ⟨_, rfl⟩, rfl⟩
  exact ⟨q, reached, scheduleRequest_returns_first_of_highest reached (by omega) fun _ => by omega⟩

end BitsAndBytes.AdaptiveScheduling
