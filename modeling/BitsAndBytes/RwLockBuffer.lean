import BitsAndBytes.BoundedBufferWakeups
import BitsAndBytes.RwLockSafety
import Mathlib.Data.Fintype.Sum
import Mathlib.Tactic.DeriveFintype

/-! # The program of `rwlock_buffer.c` -/

namespace BitsAndBytes.RwLockBuffer

open Interleaving OperationRuns Function Option

abbrev numReaders : Nat := 5

abbrev numWriters : Nat := 2

def bufferSize : Int := 10

def numIterations : Nat := 20

inductive Thread
  | reader (index : Fin numReaders)
  | writer (index : Fin numWriters)
deriving DecidableEq, Fintype

namespace Thread

def role : Thread → RwLock.Role
  | reader _ => .reader
  | writer _ => .writer

def side : Thread → BoundedBuffer.Side
  | reader _ => .consumers
  | writer _ => .producers

end Thread

inductive Point
  | test (i : Nat)
  | lock (i : Nat) (call : BoundedBuffer.Call) (point : RwLock.Point)
  | exchange (i : Nat) (point : BoundedBuffer.Point)
  | sleep (i : Nat)
  | finished
deriving DecidableEq

structure Shared where
  lock : RwLock.Lock Thread
  bb : BoundedBuffer.Buffer Thread
  running : Bool
  sharedData : Int

inductive Action
  | proceed
  | rand (value : Nat)
  | signal (woken : Option Thread)

inductive Event
  | read (value : Int)
  | wrote (value : Int)
  | exchanged (transfer : BoundedBuffer.Transfer)
deriving DecidableEq

def Thread.call : Thread → Action → Option BoundedBuffer.Call
  | reader _, .proceed => some .bbConsume
  | writer _, .rand value => some (.bbProduce (value % 100 : Nat))
  | _, _ => none

def access (sharedData : Int) : BoundedBuffer.Call → RwLock.Point → Int × Option Event
  | .bbConsume, .reading => (sharedData, some (.read sharedData))
  | .bbProduce newValue, .writing => (newValue, some (.wrote newValue))
  | _, _ => (sharedData, none)

def advanceLock (t : Thread) (shared : Shared) (i : Nat) (call : BoundedBuffer.Call)
    (point : RwLock.Point) : Option (Shared × Point × Option Event) :=
  (RwLock.advance t shared.lock point).map fun next =>
    ({ shared with
        lock := next.1
        sharedData := (access shared.sharedData call point).1 },
      if next.2 = t.role.start then .exchange i (.inside call .lock)
      else .lock i call next.2,
      (access shared.sharedData call point).2)

def advanceExchange (t : Thread) (shared : Shared) (i : Nat)
    (point : BoundedBuffer.Point) (action : BoundedBuffer.Action Thread) :
    Option (Shared × Point × Option Event) :=
  (BoundedBuffer.advance t shared.running shared.bb point action).map fun next =>
    ({ shared with bb := next.1 },
      if next.2.1 = .idle then .sleep i else .exchange i next.2.1,
      next.2.2.map .exchanged)

def advance (t : Thread) (shared : Shared) : Point → Action → Option (Shared × Point × Option Event)
  | .test i, action =>
    if i < numIterations ∧ shared.running then
      (t.call action).map fun call => (shared, .lock i call t.role.start, none)
    else
      some (shared, .finished, none)
  | .lock i call point, .proceed => advanceLock t shared i call point
  | .exchange i point, .proceed => advanceExchange t shared i point .proceed
  | .exchange i point, .signal woken =>
    advanceExchange t shared i point (.signal woken)
  | .sleep i, .proceed => some (shared, .test (i + 1), none)
  | _, _ => none

def start (malloced : Int → Int) : Config Thread Shared Point where
  shared :=
    { lock := RwLock.rwlockInit
      bb := BoundedBuffer.bbInit malloced bufferSize
      running := true
      sharedData := 0 }
  points := fun _ => .test 0

/-- A step of a thread, or the run of `handle_signal`. -/
inductive Op
  | thread (t : Thread) (action : Action)
  | handleSignal

def step (config : Config Thread Shared Point) :
    Op → Option (Config Thread Shared Point × Option Event)
  | .thread t action =>
    (advance t config.shared (config.points t) action).map fun next =>
      (⟨next.1, update config.points t next.2.1⟩, next.2.2)
  | .handleSignal => some ({ config with shared.running := false }, none)

/-- The steps of the threads, made of those of `RwLock` and `BoundedBuffer`. -/
inductive Moves (t : Thread) : Shared → Point → Shared → Point → Prop
  | begin {shared i call} (more : i < numIterations)
      (isRunning : shared.running) (mine : call.side = t.side) :
      Moves t shared (.test i) shared (.lock i call t.role.start)
  | finish {shared i} (ended : shared.running → numIterations ≤ i) :
      Moves t shared (.test i) shared .finished
  | locking {shared i call point lock next}
      (moved : RwLock.Moves t shared.lock point lock next) :
      Moves t shared (.lock i call point)
        { shared with
          lock := lock
          sharedData := (access shared.sharedData call point).1 }
        (.lock i call next)
  | unlocked {shared i point lock} (call : BoundedBuffer.Call)
      (moved : RwLock.Moves t shared.lock point lock t.role.start) :
      Moves t shared (.lock i call point)
        { shared with
          lock := lock
          sharedData := (access shared.sharedData call point).1 }
        (.exchange i (.inside call .lock))
  | exchanging {shared i point bb next out}
      (moved : BoundedBuffer.Moves t shared.running shared.bb point bb next out)
      (within : next ≠ .idle) :
      Moves t shared (.exchange i point) { shared with bb := bb } (.exchange i next)
  | exchanged {shared i point bb out}
      (moved : BoundedBuffer.Moves t shared.running shared.bb point bb .idle out) :
      Moves t shared (.exchange i point) { shared with bb := bb } (.sleep i)
  | sleep {shared i} : Moves t shared (.sleep i) shared (.test (i + 1))

variable {action : Action} {i : Nat} {config last : Config Thread Shared Point} {op : Op}

section

variable {t : Thread} {shared next : Shared} {nextPoint : Point} {event : Option Event}
  {call : BoundedBuffer.Call}

theorem side_of_call (called : t.call action = some call) : call.side = t.side := by
  cases t with
  | reader index =>
    cases action with
    | proceed =>
      cases called
      rfl
    | _ => cases called
  | writer index =>
    cases action with
    | rand value =>
      cases called
      rfl
    | _ => cases called

theorem moves_of_advanceLock {point : RwLock.Point}
    (advanced : advanceLock t shared i call point = some (next, nextPoint, event)) :
    Moves t shared (.lock i call point) next nextPoint := by
  obtain ⟨⟨lock, within⟩, lockAdvanced, ⟨⟩⟩ := map_eq_some_iff.mp advanced
  have moved := RwLock.moves_of_advance lockAdvanced
  by_cases outside : within = t.role.start
  · subst outside
    rw [if_pos rfl]
    exact .unlocked call moved
  · rw [if_neg outside]
    exact .locking moved

theorem moves_of_advanceExchange {point : BoundedBuffer.Point}
    {action : BoundedBuffer.Action Thread}
    (advanced : advanceExchange t shared i point action = some (next, nextPoint, event)) :
    Moves t shared (.exchange i point) next nextPoint := by
  obtain ⟨⟨bb, within, out⟩, bufferAdvanced, ⟨⟩⟩ := map_eq_some_iff.mp advanced
  have moved := BoundedBuffer.moves_of_advance bufferAdvanced
  by_cases outside : within = .idle
  · subst outside
    exact .exchanged moved
  · rw [if_neg outside]
    exact .exchanging moved outside

theorem moves_of_advance {point : Point}
    (advanced : advance t shared point action = some (next, nextPoint, event)) :
    Moves t shared point next nextPoint := by
  cases point with
  | test i =>
    rw [advance] at advanced
    split at advanced
    · rename_i more
      obtain ⟨call, called, ⟨⟩⟩ := map_eq_some_iff.mp advanced
      exact .begin more.1 more.2 (side_of_call called)
    · rename_i ended
      cases advanced
      refine .finish fun isRunning => ?_
      exact not_lt.mp fun more => ended ⟨more, isRunning⟩
  | lock i call point =>
    cases action with
    | proceed => exact moves_of_advanceLock advanced
    | _ => cases advanced
  | exchange i point =>
    cases action with
    | rand value => cases advanced
    | _ => exact moves_of_advanceExchange advanced
  | sleep i =>
    cases action with
    | proceed =>
      cases advanced
      exact .sleep
    | _ => cases advanced
  | finished => cases action <;> cases advanced

theorem step_cases (stepEq : step config op = some (last, event)) :
    (∃ t shared point, Moves t config.shared (config.points t) shared point ∧
      last = ⟨shared, update config.points t point⟩) ∨
    op = .handleSignal ∧ last = { config with shared.running := false } := by
  cases op with
  | thread t action =>
    obtain ⟨⟨shared, point, happened⟩, advanced, ⟨⟩⟩ := map_eq_some_iff.mp stepEq
    exact .inl ⟨t, shared, point, moves_of_advance advanced, rfl⟩
  | handleSignal =>
    cases stepEq
    exact .inr ⟨rfl, rfl⟩

end

section

def Point.buffer : Point → BoundedBuffer.Point
  | .exchange _ point => point
  | .test _ | .lock _ _ _ | .sleep _ | .finished => .idle

def Point.rwlock (t : Thread) : Point → RwLock.Point
  | .lock _ _ point => point
  | .test _ | .exchange _ _ | .sleep _ | .finished => t.role.start

def bufferView (config : Config Thread Shared Point) :
    Config Thread (BoundedBuffer.Shared Thread) BoundedBuffer.Point where
  shared := ⟨config.shared.bb, config.shared.running⟩
  points := fun t => (config.points t).buffer

def lockView (config : Config Thread Shared Point) :
    Config Thread (RwLock.Lock Thread) RwLock.Point where
  shared := config.shared.lock
  points := fun t => (config.points t).rwlock t

variable {t : Thread} {shared next : Shared} {point nextPoint : Point} {op : Op}
  {event : Option Event}

theorem bufferView_update (points : Thread → Point) : bufferView ⟨shared, update points t point⟩ =
      ⟨⟨shared.bb, shared.running⟩, update (fun s => (points s).buffer) t point.buffer⟩ := by
  simp only [bufferView, apply_update fun _ => Point.buffer]

theorem lockView_update (points : Thread → Point) : lockView ⟨shared, update points t point⟩ =
      ⟨shared.lock, update (fun s => (points s).rwlock s) t (point.rwlock t)⟩ := by
  simp only [lockView, apply_update Point.rwlock]

section

variable (moved : Moves t shared point next nextPoint)
include moved

theorem Moves.running_eq : next.running = shared.running := by
  cases moved <;> rfl

theorem Moves.buffer : (next.bb = shared.bb ∧ nextPoint.buffer = point.buffer) ∨
      ∃ out, BoundedBuffer.Moves t shared.running shared.bb point.buffer next.bb
        nextPoint.buffer out := by
  cases moved with
  | unlocked call => exact .inr ⟨none, .call call⟩
  | exchanging moved | exchanged moved => exact .inr ⟨_, moved⟩
  | _ => exact .inl ⟨rfl, rfl⟩

theorem Moves.rwlock : (next.lock = shared.lock ∧ nextPoint.rwlock t = point.rwlock t) ∨
      RwLock.Moves t shared.lock (point.rwlock t) next.lock (nextPoint.rwlock t) := by
  cases moved with
  | locking moved | unlocked _ moved => exact .inr moved
  | _ => exact .inl ⟨rfl, rfl⟩

end

theorem attended_of_step (attended : BoundedBuffer.Attended (bufferView config))
    (stepEq : step config op = some (last, event)) : BoundedBuffer.Attended (bufferView last) := by
  rcases step_cases stepEq with ⟨t, shared, point, moved, rfl⟩ | ⟨-, rfl⟩
  · rw [bufferView_update, moved.running_eq]
    rcases moved.buffer with ⟨bbEq, pointEq⟩ | ⟨out, inBuffer⟩
    · rw [bbEq, pointEq, update_eq_self t fun s => (config.points s).buffer]
      exact attended
    · exact attended.moves inBuffer
  · exact attended.handleSignal

theorem sound_of_step (sound : RwLock.Sound (lockView config))
    (stepEq : step config op = some (last, event)) : RwLock.Sound (lockView last) := by
  rcases step_cases stepEq with ⟨t, shared, point, moved, rfl⟩ | ⟨-, rfl⟩
  · rw [lockView_update]
    rcases moved.rwlock with ⟨lockEq, pointEq⟩ | inLock
    · rw [lockEq, pointEq, update_eq_self t fun s => (config.points s).rwlock s]
      exact sound
    · exact sound.moves inLock
  · exact sound

end

theorem sharedData_kept_while_reading {malloced : Int → Int} {schedule : List Op}
    (reached : Reaches step (start malloced) schedule config) {event : Option Event}
    (stepEq : step config op = some (last, event)) {reader : Thread}
    (reads : (config.points reader).rwlock reader = .reading) :
    last.shared.sharedData = config.shared.sharedData := by
  have sound : RwLock.Sound (lockView config) :=
    reached.invariant (fun config => RwLock.Sound (lockView config))
      (fun sound stepEq => sound_of_step sound stepEq) (RwLock.sound_start Thread.role)
  have held : RwLock.holdsForReaders config.shared.lock.readCount
      ((config.points reader).rwlock reader) := by
    rw [reads]
    trivial
  have unwritten : ∀ {t i call point}, config.points t = .lock i call point →
      (access config.shared.sharedData call point).1 = config.shared.sharedData := by
    intro t i call point pointEq
    have notWriting := sound.not_writing (s := t) held
    simp only [lockView, pointEq, Point.rwlock] at notWriting
    cases call <;> cases point <;> first | rfl | exact absurd rfl notWriting
  rcases step_cases stepEq with ⟨t, shared, point, moved, rfl⟩ | ⟨-, rfl⟩
  · generalize before : config.points t = previous at moved
    cases moved with
    | locking | unlocked => exact unwritten before
    | _ => rfl
  · rfl

theorem sharedData_kept_while_first_reads : ∃ config last, Reaches step (start fun _ => 0)
        (List.replicate 6 (.thread (.reader 0) .proceed)) config ∧
      (config.points (.reader 0)).rwlock (.reader 0) = .reading ∧
      step config (.thread (.writer 1) (.rand 7)) = some (last, none) ∧
      last.shared.sharedData = config.shared.sharedData := by
  obtain ⟨config, last, reached, reads, stepEq⟩ : ∃ config last, Reaches step (start fun _ => 0)
        (List.replicate 6 (.thread (.reader 0) .proceed)) config ∧
      (config.points (.reader 0)).rwlock (.reader 0) = .reading ∧
      step config (.thread (.writer 1) (.rand 7)) = some (last, none) := ⟨_, _, ⟨_, rfl⟩, rfl, rfl⟩
  exact ⟨config, last, reached, reads, stepEq, sharedData_kept_while_reading reached stepEq reads⟩

end BitsAndBytes.RwLockBuffer
