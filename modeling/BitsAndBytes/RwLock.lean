import BitsAndBytes.Interleaving

/-! # The readers-writer lock of `rwlock_buffer.c` -/

namespace BitsAndBytes.RwLock

open Interleaving OperationRuns Option Function

variable {Thread : Type*}

@[ext]
structure Lock (Thread : Type*) where
  counterLock : Option Thread
  writeLock : Option Thread
  readCount : Int

def rwlockInit : Lock Thread where
  counterLock := none
  writeLock := none
  readCount := 0

inductive Point
  | readLock
  | increment
  | testFirst
  | lockFirst
  | enter
  | reading
  | decrement
  | testLast
  | unlockLast
  | leave
  | writeLock
  | writing
deriving DecidableEq, Repr

def advance (t : Thread) (lock : Lock Thread) : Point → Option (Lock Thread × Point)
  | .readLock =>
    if lock.counterLock = none then
      some ({ lock with counterLock := some t }, .increment)
    else
      none
  | .increment => some ({ lock with readCount := lock.readCount + 1 }, .testFirst)
  | .testFirst =>
    if lock.readCount = 1 then some (lock, .lockFirst) else some (lock, .enter)
  | .lockFirst =>
    if lock.writeLock = none then
      some ({ lock with writeLock := some t }, .enter)
    else
      none
  | .enter => some ({ lock with counterLock := none }, .reading)
  | .reading =>
    if lock.counterLock = none then
      some ({ lock with counterLock := some t }, .decrement)
    else
      none
  | .decrement => some ({ lock with readCount := lock.readCount - 1 }, .testLast)
  | .testLast =>
    if lock.readCount = 0 then some (lock, .unlockLast) else some (lock, .leave)
  | .unlockLast => some ({ lock with writeLock := none }, .leave)
  | .leave => some ({ lock with counterLock := none }, .readLock)
  | .writeLock =>
    if lock.writeLock = none then
      some ({ lock with writeLock := some t }, .writing)
    else
      none
  | .writing => some ({ lock with writeLock := none }, .writeLock)

inductive Role
  | reader
  | writer
deriving DecidableEq, Repr

def Role.start : Role → Point
  | .reader => .readLock
  | .writer => .writeLock

def start (role : Thread → Role) : Config Thread (Lock Thread) Point where
  shared := rwlockInit
  points := fun t => (role t).start

def step [DecidableEq Thread] (config : Config Thread (Lock Thread) Point) (t : Thread) :
    Option (Config Thread (Lock Thread) Point × Unit) :=
  (advance t config.shared (config.points t)).map fun next =>
    (⟨next.1, update config.points t next.2⟩, ())

/-- The steps of a thread, each a lock, an unlock, a change or a test of `read_count`. -/
inductive Moves (t : Thread) :
    Lock Thread → Point → Lock Thread → Point → Prop
  | readLock {lock} (free : lock.counterLock = none) :
      Moves t lock .readLock { lock with counterLock := some t } .increment
  | increment {lock} : Moves t lock .increment { lock with readCount := lock.readCount + 1 }
        .testFirst
  | isFirst {lock} (one : lock.readCount = 1) : Moves t lock .testFirst lock .lockFirst
  | notFirst {lock} (notOne : lock.readCount ≠ 1) : Moves t lock .testFirst lock .enter
  | lockFirst {lock} (free : lock.writeLock = none) :
      Moves t lock .lockFirst { lock with writeLock := some t } .enter
  | enter {lock} : Moves t lock .enter { lock with counterLock := none } .reading
  | reading {lock} (free : lock.counterLock = none) :
      Moves t lock .reading { lock with counterLock := some t } .decrement
  | decrement {lock} : Moves t lock .decrement { lock with readCount := lock.readCount - 1 }
        .testLast
  | isLast {lock} (zero : lock.readCount = 0) : Moves t lock .testLast lock .unlockLast
  | notLast {lock} (notZero : lock.readCount ≠ 0) : Moves t lock .testLast lock .leave
  | unlockLast {lock} : Moves t lock .unlockLast { lock with writeLock := none } .leave
  | leave {lock} : Moves t lock .leave { lock with counterLock := none } .readLock
  | writeLock {lock} (free : lock.writeLock = none) :
      Moves t lock .writeLock { lock with writeLock := some t } .writing
  | writing {lock} : Moves t lock .writing { lock with writeLock := none } .writeLock

theorem moves_of_advance {t : Thread} {lock next : Lock Thread}
    {point nextPoint : Point}
    (advanced : advance t lock point = some (next, nextPoint)) :
    Moves t lock point next nextPoint := by
  cases point with
  | readLock | lockFirst | reading | writeLock =>
    rw [advance, ite_none_right_eq_some] at advanced
    obtain ⟨free, ⟨⟩⟩ := advanced
    constructor
    exact free
  | testFirst =>
    rw [advance] at advanced
    split at advanced <;> cases advanced
    · exact .isFirst ‹_›
    · exact .notFirst ‹_›
  | testLast =>
    rw [advance] at advanced
    split at advanced <;> cases advanced
    · exact .isLast ‹_›
    · exact .notLast ‹_›
  | _ =>
    cases advanced
    constructor

theorem moves_of_step [DecidableEq Thread] {config next : Config Thread (Lock Thread) Point}
    {t : Thread} {out : Unit} (stepEq : step config t = some (next, out)) :
    ∃ lock point, Moves t config.shared (config.points t) lock point ∧
      next = ⟨lock, update config.points t point⟩ := by
  obtain ⟨⟨lock, point⟩, advanced, nextEq⟩ := map_eq_some_iff.mp stepEq
  exact ⟨lock, point, moves_of_advance advanced, (Prod.mk.inj nextEq).1.symm⟩

end BitsAndBytes.RwLock
