import BitsAndBytes.Monitor

/-! # The lock of `upgradeableReadLocks.c` -/

namespace BitsAndBytes.UpgradeableRwLock

open Interleaving Monitor OperationRuns

inductive Cond
  | readers
  | writers
deriving DecidableEq, Repr

@[ext]
structure Lock where
  readers : Int
  writers : Int
  upgraders : Int
  isWriting : Bool

def init : Lock := ⟨0, 0, 0, false⟩

inductive Point
  | readLock
  | reading
  | upgrading
  | writing
deriving DecidableEq, Repr

inductive Choice
  | release
  | upgrade
deriving DecidableEq, Repr

def readLock (lock : Lock) : Outcome Lock Cond Point :=
  if lock.writers > 0 ∨ lock.isWriting then
    { data := lock
      wake := .nobody
      exit := .wait .readers .readLock }
  else
    { data := { lock with readers := lock.readers + 1 }
      wake := .nobody
      exit := .leave .reading }

def readUnlock (lock : Lock) : Outcome Lock Cond Point where
  data := { lock with readers := lock.readers - 1 }
  wake := if lock.readers - 1 = 0 ∧ lock.writers > 0 then .signal .writers else .nobody
  exit := .leave .readLock

def upgrade (lock : Lock) : Outcome Lock Cond Point :=
  if lock.readers > 1 ∨ lock.writers > 0 ∨ lock.isWriting then
    { data := lock
      wake := .nobody
      exit := .wait .writers .upgrading }
  else
    { data := { lock with
        readers := lock.readers - 1
        isWriting := true
        upgraders := lock.upgraders - 1 }
      wake := .nobody
      exit := .leave .writing }

def writeUnlock (lock : Lock) : Outcome Lock Cond Point where
  data := { lock with isWriting := false }
  wake :=
    if lock.upgraders > 0 then .signal .writers
    else if lock.writers > 0 then .signal .writers
    else .broadcast .readers
  exit := .leave .readLock

def sections : Choice → Point → Lock → Outcome Lock Cond Point
  | _, .readLock, lock => readLock lock
  | .release, .reading, lock => readUnlock lock
  | .upgrade, .reading, lock => upgrade { lock with upgraders := lock.upgraders + 1 }
  | _, .upgrading, lock => upgrade lock
  | _, .writing, lock => writeUnlock lock

def Busy (lock : Lock) : Cond → Prop
  | .readers => 0 < lock.writers ∨ lock.isWriting
  | .writers => 1 < lock.readers ∨ 0 < lock.writers ∨ lock.isWriting

inductive Executes : Choice → Point → Lock → Outcome Lock Cond Point → Prop
  | readWaits {choice lock} (busy : Busy lock .readers) :
      Executes choice .readLock lock ⟨lock, .nobody, .wait .readers .readLock⟩
  | readEnters {choice lock} (free : ¬ Busy lock .readers) : Executes choice .readLock lock
        ⟨{ lock with readers := lock.readers + 1 }, .nobody, .leave .reading⟩
  | readUnlock {lock} : Executes .release .reading lock (readUnlock lock)
  | upgradeWaits {lock} (busy : Busy lock .writers) : Executes .upgrade .reading lock
        ⟨{ lock with upgraders := lock.upgraders + 1 }, .nobody, .wait .writers .upgrading⟩
  | upgradeEnters {lock} (free : ¬ Busy lock .writers) : Executes .upgrade .reading lock
        ⟨{ lock with readers := lock.readers - 1, isWriting := true }, .nobody, .leave .writing⟩
  | upgradeWaitsAgain {choice lock} (busy : Busy lock .writers) :
      Executes choice .upgrading lock ⟨lock, .nobody, .wait .writers .upgrading⟩
  | upgradeEntersAgain {choice lock} (free : ¬ Busy lock .writers) : Executes choice .upgrading lock
        ⟨{ lock with
            readers := lock.readers - 1
            isWriting := true
            upgraders := lock.upgraders - 1 }, .nobody, .leave .writing⟩
  | writeUnlock {choice lock} : Executes choice .writing lock (writeUnlock lock)

theorem executes_sections (choice : Choice) (point : Point) (lock : Lock) :
    Executes choice point lock (sections choice point lock) := by
  cases point with
  | readLock =>
    rw [sections, readLock]
    split
    · exact .readWaits ‹_›
    · exact .readEnters ‹_›
  | reading =>
    cases choice with
    | release => exact .readUnlock
    | upgrade =>
      rw [sections, upgrade]
      split
      · exact .upgradeWaits ‹_›
      · rw [Int.add_sub_cancel]
        exact .upgradeEnters ‹_›
  | upgrading =>
    rw [sections, upgrade]
    split
    · exact .upgradeWaitsAgain ‹_›
    · exact .upgradeEntersAgain ‹_›
  | writing => exact .writeUnlock

def HoldsRead (point : Point) : Prop :=
  point = .reading ∨ point = .upgrading

instance : DecidablePred HoldsRead :=
  fun _ => inferInstanceAs (Decidable (_ ∨ _))

section

variable {Thread : Type*}

/-- The counters count the readers, and a writer is alone. -/
structure Exclusive (lock : Lock) (points : Thread → Point) : Prop where
  readers : Counts (fun t => HoldsRead (points t)) lock.readers
  writing : Counts (fun t => points t = .writing) (if lock.isWriting then 1 else 0)
  alone : lock.isWriting → lock.readers = 0

namespace Exclusive

variable {lock : Lock} {points : Thread → Point} {t : Thread} {choice : Choice}
  {outcome : Outcome Lock Cond Point}

theorem isWriting_of_writing (exclusive : Exclusive lock points)
    (there : points t = .writing) : lock.isWriting :=
  exclusive.writing.flag_iff.mpr ⟨t, there⟩

theorem readers_of_executes {point : Point}
    (executed : Executes choice point lock outcome) :
    outcome.data.readers = lock.readers + (if HoldsRead outcome.exit.place.point then 1 else 0) -
        if HoldsRead point then 1 else 0 := by
  cases executed <;> simp [HoldsRead, Exit.place, Place.point, readUnlock, writeUnlock]

theorem writing_of_executes (exclusive : Exclusive lock points)
    (executed : Executes choice (points t) lock outcome) :
    (if outcome.data.isWriting then 1 else 0 : Int) = (if lock.isWriting then 1 else 0) +
        (if outcome.exit.place.point = .writing then 1 else 0) -
          if points t = .writing then 1 else 0 := by
  generalize before : points t = previous at executed
  cases executed with
  | upgradeEnters free | upgradeEntersAgain free =>
    have notWriting : ¬ lock.isWriting := fun writing => free (.inr (.inr writing))
    simp [notWriting, Exit.place, Place.point]
  | writeUnlock =>
    simp [exclusive.isWriting_of_writing before, writeUnlock, Exit.place, Place.point]
  | _ => simp [Exit.place, Place.point, readUnlock]

theorem alone_of_executes (exclusive : Exclusive lock points)
    (executed : Executes choice (points t) lock outcome)
    (writing : outcome.data.isWriting) : outcome.data.readers = 0 := by
  have held : HoldsRead (points t) → 0 < lock.readers := exclusive.readers.pos
  generalize points t = previous at executed held
  cases executed with
  | readWaits | upgradeWaits | upgradeWaitsAgain => exact exclusive.alone writing
  | readEnters free => exact absurd (.inr writing) free
  | readUnlock =>
    have := held (.inl rfl)
    have := exclusive.alone writing
    omega
  | upgradeEnters free =>
    have := held (.inl rfl)
    simp only [Busy, not_or] at free
    simp only
    omega
  | upgradeEntersAgain free =>
    have := held (.inr rfl)
    simp only [Busy, not_or] at free
    simp only
    omega
  | writeUnlock => cases writing

theorem execute [DecidableEq Thread] (exclusive : Exclusive lock points)
    (executed : Executes choice (points t) lock outcome) :
    Exclusive outcome.data (Function.update points t outcome.exit.place.point) where
  readers := by
    rw [readers_of_executes executed]
    exact exclusive.readers.update HoldsRead
  writing := by
    rw [exclusive.writing_of_executes executed]
    exact exclusive.writing.update (· = Point.writing)
  alone := exclusive.alone_of_executes executed

end Exclusive

theorem exclusive_start : Exclusive init fun _ : Thread => Point.readLock where
  readers := counts_zero fun _ => by simp [HoldsRead]
  writing := counts_zero fun _ => nofun
  alone := nofun

end

def start (Thread : Type*) : Config Thread (Shared Thread Lock Cond) (Place Cond Point) :=
  Monitor.start init fun _ => .readLock

section

variable {Thread : Type*} [DecidableEq Thread] {schedule : List (Op Thread Choice)}
  {config : Config Thread (Shared Thread Lock Cond) (Place Cond Point)}

theorem exclusive_of_reaches
    (reached : Reaches (step sections) (start Thread) schedule config) :
    Exclusive config.shared.data fun t => (config.points t).point := by
  refine (invariant_of_sections (fun current => Exclusive current.data current.points)
    ?_ reached exclusive_start).2
  intro current after exclusive executed
  cases executed with
  | @execute t choice _ _ _ executed =>
    exact exclusive.execute (executed ▸ executes_sections choice _ _)
  | wakeup t => exact exclusive

/-- In every interleaving an upgraded thread has the lock alone. -/
theorem upgraded_thread_alone (schedule : List (Op Thread Choice))
    (config : Config Thread (Shared Thread Lock Cond) (Place Cond Point))
    (reached : Reaches (step sections) (start Thread) schedule config) :
    (∀ s t, (config.points s).point = .writing → (config.points t).point = .writing → s = t) ∧
    (config.shared.data.isWriting ↔ ∃ t, (config.points t).point = .writing) ∧
    (∀ s t, (config.points s).point = .writing → ¬ HoldsRead (config.points t).point) ∧
    Counts (fun t => HoldsRead (config.points t).point) config.shared.data.readers := by
  have exclusive := exclusive_of_reaches reached
  refine ⟨?_, exclusive.writing.flag_iff, ?_, exclusive.readers⟩
  · intro s t first second
    exact exclusive.writing.unique_of_flag first second
  · intro s t writes reads
    have positive := exclusive.readers.pos reads
    have zero := exclusive.alone (exclusive.isWriting_of_writing writes)
    omega

end

theorem upgraded_alone : ∃ config, Reaches (step sections) (start Bool)
        (turn true .release none ++ turn true .upgrade none) config ∧
      (config.points true).point = .writing ∧ ¬ HoldsRead (config.points false).point := by
  refine ⟨_, ⟨_, rfl⟩, rfl, ?_⟩
  exact (upgraded_thread_alone (turn true .release none ++ turn true .upgrade none) _
    ⟨_, rfl⟩).2.2.1 true false rfl

end BitsAndBytes.UpgradeableRwLock
