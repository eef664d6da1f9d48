import BitsAndBytes.Interleaving

/-! # The bounded buffer of `rwlock_buffer.c` -/

namespace BitsAndBytes.BoundedBuffer

open Interleaving OperationRuns Option Function

variable {Thread : Type*}

@[ext]
structure Buffer (Thread : Type*) where
  mutex : Option Thread
  notFull : Finset Thread
  notEmpty : Finset Thread
  buffer : Int → Int
  size : Int
  count : Int
  inIndex : Int
  outIndex : Int

def bbInit (malloced : Int → Int) (size : Int) : Buffer Thread where
  mutex := none
  notFull := ∅
  notEmpty := ∅
  buffer := malloced
  size := size
  count := 0
  inIndex := 0
  outIndex := 0

inductive Call
  | bbProduce (item : Int)
  | bbConsume
deriving DecidableEq, Repr

inductive Side
  | producers
  | consumers
deriving DecidableEq, Repr

def Side.other : Side → Side
  | .producers => .consumers
  | .consumers => .producers

def Call.side : Call → Side
  | .bbProduce _ => .producers
  | .bbConsume => .consumers

inductive Stage
  | lock
  | test
  | wait
  | blocked
  | check
  | transfer
  | signal
  | unlock
deriving DecidableEq, Repr

inductive Point
  | idle
  | inside (call : Call) (stage : Stage)
deriving DecidableEq, Repr

namespace Buffer

def waiting (bb : Buffer Thread) : Side → Finset Thread
  | .producers => bb.notFull
  | .consumers => bb.notEmpty

def setWaiting (bb : Buffer Thread) (threads : Finset Thread) : Side → Buffer Thread
  | .producers => { bb with notFull := threads }
  | .consumers => { bb with notEmpty := threads }

def room (bb : Buffer Thread) : Side → Int
  | .producers => bb.size - bb.count
  | .consumers => bb.count

def mustWait (bb : Buffer Thread) : Side → Bool
  | .producers => decide (bb.count = bb.size)
  | .consumers => decide (bb.count = 0)

end Buffer

namespace Buffer

@[simp]
theorem waiting_mutex (bb : Buffer Thread) (owner : Option Thread) (side : Side) :
    ({ bb with mutex := owner } : Buffer Thread).waiting side = bb.waiting side := by
  cases side <;> rfl

structure SameItems (bb other : Buffer Thread) : Prop where
  buffer_eq : bb.buffer = other.buffer
  size_eq : bb.size = other.size
  count_eq : bb.count = other.count
  inIndex_eq : bb.inIndex = other.inIndex
  outIndex_eq : bb.outIndex = other.outIndex

theorem sameItems_mutex (bb : Buffer Thread) (owner : Option Thread) :
    SameItems { bb with mutex := owner } bb := ⟨rfl, rfl, rfl, rfl, rfl⟩

theorem sameItems_setWaiting (bb : Buffer Thread) (threads : Finset Thread)
    (side : Side) : SameItems (bb.setWaiting threads side) bb := by
  cases side <;> exact ⟨rfl, rfl, rfl, rfl, rfl⟩

theorem SameItems.room_eq {bb other : Buffer Thread} (same : SameItems bb other)
    (side : Side) : bb.room side = other.room side := by
  cases side <;> simp only [room, same.count_eq, same.size_eq]

@[simp]
theorem setWaiting_mutex (bb : Buffer Thread) (threads : Finset Thread)
    (side : Side) : (bb.setWaiting threads side).mutex = bb.mutex := by
  cases side <;> rfl

theorem waiting_setWaiting (bb : Buffer Thread) (threads : Finset Thread) (side other : Side) :
    (bb.setWaiting threads side).waiting other =
      if other = side then threads else bb.waiting other := by
  cases side <;> cases other <;> rfl

end Buffer

inductive Transfer
  | stored (item : Int)
  | taken (item : Int)
deriving DecidableEq, Repr

def transfer (bb : Buffer Thread) : Call → Buffer Thread × Transfer
  | .bbProduce item =>
    ({ bb with
        buffer := update bb.buffer bb.inIndex item
        inIndex := (bb.inIndex + 1).tmod bb.size
        count := bb.count + 1 }, .stored item)
  | .bbConsume =>
    ({ bb with
        outIndex := (bb.outIndex + 1).tmod bb.size
        count := bb.count - 1 }, .taken (bb.buffer bb.outIndex))

@[simp]
theorem transfer_waiting (bb : Buffer Thread) (call : Call) (side : Side) :
    (transfer bb call).1.waiting side = bb.waiting side := by
  cases call <;> cases side <;> rfl

@[simp]
theorem transfer_mutex (bb : Buffer Thread) (call : Call) :
    (transfer bb call).1.mutex = bb.mutex := by
  cases call <;> rfl

inductive Action (Thread : Type*)
  | call (call : Call)
  | proceed
  | signal (woken : Option Thread)

def advance [DecidableEq Thread] (t : Thread) (running : Bool)
    (bb : Buffer Thread) :
    Point → Action Thread → Option (Buffer Thread × Point × Option Transfer)
  | .idle, .call call => some (bb, .inside call .lock, none)
  | .inside call .lock, .proceed =>
    if bb.mutex = none then
      some ({ bb with mutex := some t }, .inside call .test, none)
    else
      none
  | .inside call .test, .proceed =>
    if bb.mustWait call.side && running then
      some (bb, .inside call .wait, none)
    else
      some (bb, .inside call .check, none)
  | .inside call .wait, .proceed =>
    some ({ bb.setWaiting (insert t (bb.waiting call.side)) call.side with
        mutex := none }, .inside call .blocked, none)
  | .inside call .blocked, .proceed =>
    if t ∉ bb.waiting call.side ∧ bb.mutex = none then
      some ({ bb with mutex := some t }, .inside call .test, none)
    else
      none
  | .inside call .check, .proceed =>
    if running then some (bb, .inside call .transfer, none)
    else some (bb, .inside call .unlock, none)
  | .inside call .transfer, .proceed =>
    some ((transfer bb call).1, .inside call .signal, some (transfer bb call).2)
  | .inside call .signal, .signal woken =>
    (signal (bb.waiting call.side.other) woken).map fun rest =>
      (bb.setWaiting rest call.side.other, .inside call .unlock, none)
  | .inside _ .unlock, .proceed => some ({ bb with mutex := none }, .idle, none)
  | _, _ => none

structure Shared (Thread : Type*) where
  bb : Buffer Thread
  running : Bool

def start (malloced : Int → Int) (size : Int) : Config Thread (Shared Thread) Point where
  shared := ⟨bbInit malloced size, true⟩
  points := fun _ => .idle

inductive Op (Thread : Type*)
  | thread (t : Thread) (action : Action Thread)
  | spuriousWakeup (t : Thread)
  | handleSignal

def step [DecidableEq Thread] (config : Config Thread (Shared Thread) Point) :
    Op Thread → Option (Config Thread (Shared Thread) Point × Option Transfer)
  | .thread t action =>
    (advance t config.shared.running config.shared.bb (config.points t) action).map
      fun next =>
        (⟨⟨next.1, config.shared.running⟩, update config.points t next.2.1⟩, next.2.2)
  | .spuriousWakeup t =>
    some ({ config with
      shared.bb.notFull := config.shared.bb.notFull.erase t
      shared.bb.notEmpty := config.shared.bb.notEmpty.erase t }, none)
  | .handleSignal => some ({ config with shared.running := false }, none)

/-- The steps of `bb_produce` and `bb_consume`. -/
inductive Moves [DecidableEq Thread] (t : Thread) (running : Bool) :
    Buffer Thread → Point → Buffer Thread → Point → Option Transfer → Prop
  | call {bb} (call : Call) : Moves t running bb .idle bb (.inside call .lock) none
  | lock {bb call} (free : bb.mutex = none) :
      Moves t running bb (.inside call .lock) { bb with mutex := some t }
        (.inside call .test) none
  | mustWait {bb call} (noRoom : bb.mustWait call.side)
      (isRunning : running) :
      Moves t running bb (.inside call .test) bb (.inside call .wait) none
  | mayGo {bb call} (roomOrStopped : running → bb.mustWait call.side = false) :
      Moves t running bb (.inside call .test) bb (.inside call .check) none
  | wait {bb} (call : Call) : Moves t running bb (.inside call .wait)
        { bb.setWaiting (insert t (bb.waiting call.side)) call.side with
          mutex := none } (.inside call .blocked) none
  | wake {bb call} (woken : t ∉ bb.waiting call.side) (free : bb.mutex = none) :
      Moves t running bb (.inside call .blocked) { bb with mutex := some t }
        (.inside call .test) none
  | go {bb call} (isRunning : running) :
      Moves t running bb (.inside call .check) bb (.inside call .transfer) none
  | giveUp {bb call} (stopped : running = false) :
      Moves t running bb (.inside call .check) bb (.inside call .unlock) none
  | transfer {bb} (call : Call) : Moves t running bb (.inside call .transfer) (transfer bb call).1
        (.inside call .signal) (some (transfer bb call).2)
  | signal {bb} (call : Call) {woken rest}
      (signalled : signal (bb.waiting call.side.other) woken = some rest) :
      Moves t running bb (.inside call .signal)
        (bb.setWaiting rest call.side.other) (.inside call .unlock) none
  | unlock {bb call} :
      Moves t running bb (.inside call .unlock) { bb with mutex := none } .idle none

section

variable [DecidableEq Thread]
variable {t : Thread} {running : Bool} {bb next : Buffer Thread} {nextPoint point : Point}
  {out : Option Transfer}

theorem moves_of_advance {action : Action Thread}
    (advanced : advance t running bb point action = some (next, nextPoint, out)) :
    Moves t running bb point next nextPoint out := by
  cases point with
  | idle =>
    cases action with
    | call call =>
      cases advanced
      exact .call call
    | proceed | signal woken => cases advanced
  | inside call stage =>
    cases action with
    | call other => cases stage <;> cases advanced
    | proceed =>
      cases stage with
      | lock =>
        rw [advance, ite_none_right_eq_some] at advanced
        obtain ⟨free, ⟨⟩⟩ := advanced
        exact .lock free
      | test =>
        rw [advance] at advanced
        split at advanced
        · rename_i both
          rw [Bool.and_eq_true] at both
          cases advanced
          exact .mustWait both.1 both.2
        · rename_i notBoth
          cases advanced
          refine .mayGo fun isRunning => ?_
          simpa [isRunning] using notBoth
      | wait =>
        cases advanced
        exact .wait call
      | blocked =>
        rw [advance, ite_none_right_eq_some] at advanced
        obtain ⟨⟨woken, free⟩, ⟨⟩⟩ := advanced
        exact .wake woken free
      | check =>
        cases isRunning : running with
        | true =>
          subst isRunning
          cases advanced
          exact .go rfl
        | false =>
          subst isRunning
          cases advanced
          exact .giveUp rfl
      | transfer =>
        cases advanced
        exact .transfer call
      | signal => cases advanced
      | unlock =>
        cases advanced
        exact .unlock
    | signal woken =>
      cases stage with
      | signal =>
        obtain ⟨rest, signalled, ⟨⟩⟩ := map_eq_some_iff.mp advanced
        exact .signal call signalled
      | _ => cases advanced

theorem Moves.transfer_or_sameItems (moved : Moves t running bb point next nextPoint out) :
    (∃ call, point = .inside call .transfer ∧ next = (BoundedBuffer.transfer bb call).1 ∧
      out = some (BoundedBuffer.transfer bb call).2 ∧
        nextPoint = .inside call .signal) ∨ Buffer.SameItems next bb ∧ out = none := by
  cases moved with
  | transfer call => exact .inl ⟨call, rfl, rfl, rfl, rfl⟩
  | wait call =>
    have same := Buffer.sameItems_setWaiting bb (insert t (bb.waiting call.side)) call.side
    exact .inr ⟨⟨same.1, same.2, same.3, same.4, same.5⟩, rfl⟩
  | signal => exact .inr ⟨Buffer.sameItems_setWaiting .., rfl⟩
  | _ => exact .inr ⟨⟨rfl, rfl, rfl, rfl, rfl⟩, rfl⟩

theorem Moves.size_eq (moved : Moves t running bb point next nextPoint out) :
    next.size = bb.size := by
  rcases moved.transfer_or_sameItems with ⟨call, -, rfl, -⟩ | ⟨same, -⟩
  · cases call <;> rfl
  · exact same.size_eq

theorem step_cases {config next : Config Thread (Shared Thread) Point} {op : Op Thread}
    (stepEq : step config op = some (next, out)) :
    (∃ t bb point, Moves t config.shared.running config.shared.bb (config.points t) bb point out ∧
      next = ⟨⟨bb, config.shared.running⟩, update config.points t point⟩) ∨
    (∃ t, out = none ∧ next = { config with
      shared.bb.notFull := config.shared.bb.notFull.erase t
      shared.bb.notEmpty := config.shared.bb.notEmpty.erase t }) ∨
    (out = none ∧ next = { config with shared.running := false }) := by
  cases op with
  | thread t action =>
    obtain ⟨⟨bb, point, transferred⟩, advanced, ⟨⟩⟩ := map_eq_some_iff.mp stepEq
    exact .inl ⟨t, bb, point, moves_of_advance advanced, rfl⟩
  | spuriousWakeup t =>
    cases stepEq
    exact .inr (.inl ⟨t, rfl, rfl⟩)
  | handleSignal =>
    cases stepEq
    exact .inr (.inr ⟨rfl, rfl⟩)

end

end BitsAndBytes.BoundedBuffer
