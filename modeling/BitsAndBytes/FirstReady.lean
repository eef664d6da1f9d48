import BitsAndBytes.OperationRuns
import BitsAndBytes.RingQueue

/-! # The scheduler of `FirstReady-FirstComeFirstServe.c` -/

namespace BitsAndBytes.FirstReady

open OperationRuns List Function

def maxQueueSize : Int := 100

structure MemoryRequest where
  address : Int
  timestamp : Int
  isRowBufferHit : Bool

/-- `hitQueue` is the queue for `true` and `missQueue` the one for `false`. -/
abbrev Queues := Bool → RingQueue MemoryRequest

def initQueues (requests : Int → MemoryRequest) : Queues := fun _ => RingQueue.empty requests

def dequeueFrom (queues : Queues) (hit : Bool) : Option (Queues × Option MemoryRequest) :=
  ((queues hit).pop maxQueueSize).map fun taken => (update queues hit taken.2, some taken.1)

def frFcfsSchedule (queues : Queues) : Option (Queues × Option MemoryRequest) :=
  if (queues true).size ≠ 0 then
    dequeueFrom queues true
  else if (queues false).size ≠ 0 then
    dequeueFrom queues false
  else
    none

inductive Op
  | enqueue (request : MemoryRequest)
  | schedule

def step (queues : Queues) : Op → Option (Queues × Option MemoryRequest)
  | .enqueue request =>
    some (update queues request.isRowBufferHit
      ((queues request.isRowBufferHit).push maxQueueSize request), none)
  | .schedule => frFcfsSchedule queues

abbrev Lists := Bool → List MemoryRequest

/-- First-ready, first-come-first-served: a request goes behind those of its kind, and the
oldest hit, or the oldest miss if there is no hit, is taken. -/
def listStep (lists : Lists) : Op → Option (Lists × Option MemoryRequest)
  | .enqueue request =>
    let kind := request.isRowBufferHit
    some (if (lists kind).length < 100 then update lists kind (lists kind ++ [request]) else lists,
      none)
  | .schedule =>
    match lists true, lists false with
    | request :: hits, _ => some (update lists true hits, some request)
    | [], request :: misses => some (update lists false misses, some request)
    | [], [] => none

/-- The rings hold the two lists. -/
structure Holds (queues : Queues) (lists : Lists) : Prop where
  valid : ∀ hit, (queues hit).Valid maxQueueSize
  contents : ∀ hit, (queues hit).contents maxQueueSize = lists hit

variable {queues : Queues} {lists : Lists} {hit : Bool}

namespace Holds

theorem replace (holds : Holds queues lists) {queue : RingQueue MemoryRequest}
    (valid : queue.Valid maxQueueSize) :
    Holds (update queues hit queue) (update lists hit (queue.contents maxQueueSize)) := by
  constructor <;> intro other <;> by_cases same : other = hit
  · rwa [same, update_self]
  · rw [update_of_ne same]
    exact holds.valid other
  · rw [same, update_self, update_self]
  · rw [update_of_ne same, update_of_ne same, holds.contents]

theorem enqueue (holds : Holds queues lists) (request : MemoryRequest) :
    ∃ next last out, step queues (.enqueue request) = some (next, out) ∧
      listStep lists (.enqueue request) = some (last, out) ∧ Holds next last := by
  have valid := holds.valid request.isRowBufferHit
  have length := valid.length_contents
  have bound := valid.size_le
  refine ⟨_, _, _, rfl, rfl, ?_⟩
  rw [holds.contents] at length
  by_cases full : (queues request.isRowBufferHit).size = maxQueueSize
  · rw [RingQueue.push_of_full full, update_eq_self, if_neg (by simp [maxQueueSize] at full; omega)]
    exact holds
  · rw [if_pos (by simp [maxQueueSize] at *; omega), ← holds.contents, ← valid.contents_push full]
    exact holds.replace (valid.push request)

theorem dequeueFrom (holds : Holds queues lists) (notEmpty : (queues hit).size ≠ 0) :
    ∃ next request rest, dequeueFrom queues hit = some (next, some request) ∧
      lists hit = request :: rest ∧ Holds next (update lists hit rest) := by
  obtain ⟨request, rest, popped, valid, contents⟩ := (holds.valid hit).pop notEmpty
  rw [holds.contents] at contents
  refine ⟨_, request, _, ?_, contents, holds.replace valid⟩
  rw [FirstReady.dequeueFrom, popped, Option.map_some]

end Holds

theorem frFcfsSchedule_refines (holds : Holds queues lists) :
    step queues .schedule = none ∧ listStep lists .schedule = none ∨
      ∃ next last out, step queues .schedule = some (next, out) ∧
        listStep lists .schedule = some (last, out) ∧ Holds next last := by
  have empty : ∀ {hit}, (queues hit).size = 0 → lists hit = [] := by
    intro hit isEmpty
    rw [← holds.contents, (holds.valid hit).contents_eq_nil_iff, isEmpty]
  by_cases noHit : (queues true).size = 0
  · by_cases noMiss : (queues false).size = 0
    · exact .inl ⟨by simp [step, frFcfsSchedule, noHit, noMiss],
        by simp [listStep, empty noHit, empty noMiss]⟩
    · obtain ⟨next, request, rest, taken, first, after⟩ := holds.dequeueFrom noMiss
      refine .inr ⟨next, _, some request, ?_, ?_, after⟩
      · simpa [step, frFcfsSchedule, noHit, noMiss] using taken
      · simp [listStep, empty noHit, first]
  · obtain ⟨next, request, rest, taken, first, after⟩ := holds.dequeueFrom noHit
    refine .inr ⟨next, _, some request, ?_, ?_, after⟩
    · simpa [step, frFcfsSchedule, noHit] using taken
    · simp [listStep, first]

/-- Calls of `enqueue` and `frFcfsSchedule` in any order schedule the same requests as the two
lists, and end the program where these have no request left. -/
theorem requests_scheduled_ready_first (requests : Int → MemoryRequest) (ops : List Op) :
    (run step (initQueues requests) ops).map Prod.snd =
      (run listStep (fun _ => []) ops).map Prod.snd := by
  refine run_results_eq Holds (fun {queues lists op} holds => ?_)
    ⟨fun _ => RingQueue.valid_empty (by decide) requests, fun _ => rfl⟩
  cases op with
  | enqueue request => exact .inr (holds.enqueue request)
  | schedule => exact frFcfsSchedule_refines holds

end BitsAndBytes.FirstReady
