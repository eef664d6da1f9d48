import BitsAndBytes.WritePrefRwLock

/-! # The lock of `aggressiveWriter.c` -/

namespace BitsAndBytes.AggressiveRwLock

open Interleaving Monitor OperationRuns
open WritePrefRwLock (Role Point)

@[ext]
structure Lock where
  activeReaders : Int
  waitingReaders : Int
  activeWriters : Int
  waitingWriters : Int
  writerWaiting : Bool

def init : Lock := ⟨0, 0, 0, 0, false⟩

def readLock (lock : Lock) : Outcome Lock Role Point :=
  if lock.activeWriters > 0 ∨ lock.writerWaiting then
    { data := { lock with waitingReaders := lock.waitingReaders + 1 }
      wake := .nobody
      exit := .wait .reader (.retry .reader) }
  else
    { data := { lock with activeReaders := lock.activeReaders + 1 }
      wake := .nobody
      exit := .leave (.unlock .reader) }

def readUnlock (lock : Lock) : Outcome Lock Role Point :=
  if lock.activeReaders - 1 = 0 ∧ lock.waitingWriters > 0 then
    { data := { lock with
        activeReaders := lock.activeReaders - 1
        writerWaiting := true }
      wake := .signal .writer
      exit := .leave (.lock .reader) }
  else
    { data := { lock with activeReaders := lock.activeReaders - 1 }
      wake := .nobody
      exit := .leave (.lock .reader) }

def writeLock (lock : Lock) : Outcome Lock Role Point :=
  if lock.activeReaders > 0 ∨ lock.activeWriters > 0 then
    { data := { lock with writerWaiting := true }
      wake := .nobody
      exit := .wait .writer (.retry .writer) }
  else
    { data := { lock with
        waitingWriters := lock.waitingWriters - 1
        activeWriters := lock.activeWriters + 1
        writerWaiting := false }
      wake := .nobody
      exit := .leave (.unlock .writer) }

def writeUnlock (lock : Lock) : Outcome Lock Role Point where
  data := { lock with activeWriters := lock.activeWriters - 1 }
  wake := if lock.waitingWriters > 0 then .signal .writer else .broadcast .reader
  exit := .leave (.lock .writer)

def sections (_ : Unit) : Point → Lock → Outcome Lock Role Point
  | .lock .reader, lock => readLock lock
  | .retry .reader, lock =>
    readLock { lock with waitingReaders := lock.waitingReaders - 1 }
  | .unlock .reader, lock => readUnlock lock
  | .lock .writer, lock =>
    writeLock { lock with waitingWriters := lock.waitingWriters + 1 }
  | .retry .writer, lock => writeLock lock
  | .unlock .writer, lock => writeUnlock lock

def start {Thread : Type*} (role : Thread → Role) :
    Config Thread (Shared Thread Lock Role) (Place Role Point) :=
  Monitor.start init fun t => .lock (role t)

/-- While no writer is active, `writer_waiting` is set if writers wait. -/
def Marked (lock : Lock) : Prop :=
  lock.activeWriters ≤ 0 → 0 < lock.waitingWriters → lock.writerWaiting

/-- A writer that leaves while others wait finds `writer_waiting` set. -/
def LeavesMarked (_ : Unit) (point : Point) (lock : Lock) : Prop :=
  point = .unlock .writer → 0 < lock.waitingWriters → lock.writerWaiting

instance (choice : Unit) (point : Point) (lock : Lock) :
    Decidable (LeavesMarked choice point lock) :=
  inferInstanceAs (Decidable (_ → _ → _))

section

variable {choice : Unit} {point : Point} {lock : Lock}

theorem activeWriters_of_section :
    (sections choice point lock).data.activeWriters = lock.activeWriters +
      (if (sections choice point lock).exit.place.point = .unlock .writer then 1 else 0) -
        if point = .unlock .writer then 1 else 0 := by
  cases point with
  | lock role | retry role =>
    cases role <;> simp only [sections, readLock, writeLock] <;> split <;>
      simp [Exit.place, Place.point]
  | unlock role =>
    cases role with
    | reader =>
      simp only [sections, readUnlock]
      split <;> simp [Exit.place, Place.point]
    | writer => simp [sections, writeUnlock, Exit.place, Place.point]

theorem Marked.readLock (marked : Marked lock) : Marked (readLock lock).data := by
  rw [AggressiveRwLock.readLock]
  split <;> exact marked

theorem Marked.readUnlock (marked : Marked lock) : Marked (readUnlock lock).data := by
  rw [AggressiveRwLock.readUnlock]
  split
  · exact fun _ _ => rfl
  · exact marked

theorem marked_writeLock (nonneg : 0 ≤ lock.activeWriters) : Marked (writeLock lock).data := by
  rw [writeLock]
  split
  · exact fun _ _ => rfl
  · intro noWriter
    simp only at noWriter
    omega

theorem Marked.section (marked : Marked lock) (nonneg : 0 ≤ lock.activeWriters)
    (leaves : LeavesMarked choice point lock) : Marked (sections choice point lock).data := by
  cases point with
  | lock role =>
    cases role with
    | reader => exact marked.readLock
    | writer => exact marked_writeLock nonneg
  | retry role =>
    cases role with
    | reader => exact readLock marked
    | writer => exact marked_writeLock nonneg
  | unlock role =>
    cases role with
    | reader => exact marked.readUnlock
    | writer => exact fun _ => leaves rfl

theorem activeReaders_writeLock (lock : Lock) :
    (writeLock lock).data.activeReaders = lock.activeReaders := by
  rw [writeLock]
  split <;> rfl

theorem unmarked_of_readLock (lock : Lock)
    (enters : lock.activeReaders < (readLock lock).data.activeReaders) :
    lock.activeWriters ≤ 0 ∧ lock.writerWaiting = false := by
  rw [readLock] at enters
  split at enters
  · exact absurd enters (lt_irrefl _)
  · rename_i free
    push Not at free
    exact ⟨free.1, Bool.not_eq_true _ ▸ free.2⟩

theorem unmarked_of_section
    (enters : lock.activeReaders < (sections choice point lock).data.activeReaders) :
    lock.activeWriters ≤ 0 ∧ lock.writerWaiting = false := by
  cases point with
  | lock role =>
    cases role with
    | reader => exact unmarked_of_readLock lock enters
    | writer =>
      rw [sections, activeReaders_writeLock] at enters
      exact absurd enters (lt_irrefl _)
  | retry role =>
    cases role with
    | reader =>
      exact unmarked_of_readLock { lock with waitingReaders := lock.waitingReaders - 1 } enters
    | writer =>
      rw [sections, activeReaders_writeLock] at enters
      exact absurd enters (lt_irrefl _)
  | unlock role =>
    cases role with
    | reader =>
      simp only [sections, readUnlock] at enters
      split at enters <;> simp only at enters <;> omega
    | writer => exact absurd enters (lt_irrefl _)

end

/-- `active_writers` counts the writers inside, and waiting writers are marked. -/
structure Preferred {Thread : Type*} (current : View Thread Lock Role Point) : Prop where
  writers : Counts (fun t => current.points t = .unlock .writer) current.data.activeWriters
  marked : Marked current.data

section

variable {Thread : Type*} [DecidableEq Thread] {role : Thread → Role}
  {schedule : List (Op Thread Unit)}
  {config next : Config Thread (Shared Thread Lock Role) (Place Role Point)}

theorem Preferred.execute {current : View Thread Lock Role Point} {t : Thread}
    {choice : Unit} {outcome : Outcome Lock Role Point} {rest : Role → Finset Thread}
    (preferred : Preferred current) (leaves : LeavesMarked choice (current.points t) current.data)
    (executed : sections choice (current.points t) current.data = outcome) :
    Preferred (current.after t outcome rest) := by
  subst executed
  refine ⟨?_, preferred.marked.section preferred.writers.nonneg leaves⟩
  rw [View.after, activeWriters_of_section]
  exact preferred.writers.update (· = Point.unlock .writer)

theorem preferred_of_reaches (reached : Reaches (step sections) (start role) schedule config)
    (leaves : Respects (step sections) (Permits LeavesMarked) (start role) schedule) :
    Sound config ∧ Preferred (view config) := by
  refine guardedInvariant_of_sections LeavesMarked Preferred ?_ ?_ reached leaves ?_
  · intro current t choice outcome woken rest preferred permitted executed _ _
    exact preferred.execute permitted executed
  · intro current t preferred
    exact ⟨preferred.writers, preferred.marked⟩
  · exact ⟨counts_zero fun _ => nofun, fun _ => nofun⟩

/-- No reader enters while a writer waits, if each leaving writer finds `writer_waiting` set. -/
theorem no_reader_passes_marked_writers (role : Thread → Role) (schedule : List (Op Thread Unit))
    (config : Config Thread (Shared Thread Lock Role) (Place Role Point))
    (reached : Reaches (step sections) (start role) schedule config)
    (leaves : Respects (step sections) (Permits LeavesMarked) (start role) schedule)
    (op : Op Thread Unit) (out : Unit)
    (next : Config Thread (Shared Thread Lock Role) (Place Role Point))
    (stepEq : step sections config op = some (next, out))
    (enters : config.shared.data.activeReaders < next.shared.data.activeReaders) :
    config.shared.data.waitingWriters ≤ 0 := by
  obtain ⟨sound, preferred⟩ := preferred_of_reaches reached leaves
  have here : (view config).data.activeReaders < (view next).data.activeReaders := enters
  have unmarked : (view config).data.activeWriters ≤ 0 ∧
      (view config).data.writerWaiting = false := by
    rcases view_step sound stepEq with same | executed
    · rw [same] at here
      exact absurd here (lt_irrefl _)
    · generalize view next = after at executed here
      cases executed with
      | execute executed awake wakes =>
        subst executed
        exact unmarked_of_section here
      | wakeup t => exact absurd here (lt_irrefl _)
  by_contra waits
  have marked := preferred.marked unmarked.1 (not_le.mp waits)
  rw [unmarked.2] at marked
  cases marked

end

inductive Contender
  | reader
  | first
  | second
deriving DecidableEq, Repr

def Contender.role : Contender → Role
  | reader => .reader
  | first | second => .writer

def twoWriters : List (Op Contender Unit) :=
  turn Contender.reader () none ++ turn Contender.first () none ++
    turn Contender.second () none ++ turn Contender.reader () (some .first) ++
      turn Contender.first () none ++ turn Contender.first () (some .second) ++
        [.thread .reader () none]

theorem reader_passes_waiting_writer :
    ∃ config next, Reaches (step sections) (start Contender.role) twoWriters config ∧
      step sections config (.thread .reader () none) = some (next, ()) ∧
        config.shared.data.activeReaders < next.shared.data.activeReaders ∧
          0 < config.shared.data.waitingWriters := by
  refine ⟨_, _, ⟨_, rfl⟩, rfl, ?_, ?_⟩ <;> decide

def markedLeave : List (Op Contender Unit) :=
  turn Contender.first () none ++ turn Contender.second () none ++
    turn Contender.first () (some .second) ++ turn Contender.second () none ++
      turn Contender.second () none ++ [.thread .reader () none]

theorem reader_follows_marked_writers :
    ∃ config next, Reaches (step sections) (start Contender.role) markedLeave config ∧
      step sections config (.thread .reader () none) = some (next, ()) ∧
        config.shared.data.waitingWriters ≤ 0 := by
  refine ⟨_, _, ⟨_, rfl⟩, rfl, ?_⟩
  exact no_reader_passes_marked_writers Contender.role markedLeave _ ⟨_, rfl⟩ (by decide)
    (.thread .reader () none) () _ rfl Int.zero_lt_one

end BitsAndBytes.AggressiveRwLock
