import BitsAndBytes.Monitor

/-! # The writer-preferring lock of `writeStarvation.c` -/

namespace BitsAndBytes.WritePrefRwLock

open Interleaving Monitor OperationRuns

inductive Role
  | reader
  | writer
deriving DecidableEq, Repr

@[ext]
structure Lock where
  activeReaders : Int
  waitingReaders : Int
  activeWriters : Int
  waitingWriters : Int

def init : Lock := ⟨0, 0, 0, 0⟩

inductive Point
  | lock (role : Role)
  | retry (role : Role)
  | unlock (role : Role)
deriving DecidableEq, Repr

def readLock (lock : Lock) : Outcome Lock Role Point :=
  if lock.activeWriters > 0 ∨ lock.waitingWriters > 0 then
    { data := { lock with waitingReaders := lock.waitingReaders + 1 }
      wake := .nobody
      exit := .wait .reader (.retry .reader) }
  else
    { data := { lock with activeReaders := lock.activeReaders + 1 }
      wake := .nobody
      exit := .leave (.unlock .reader) }

def readUnlock (lock : Lock) : Outcome Lock Role Point where
  data := { lock with activeReaders := lock.activeReaders - 1 }
  wake :=
    if lock.activeReaders - 1 = 0 ∧ lock.waitingWriters > 0 then .signal .writer
    else .nobody
  exit := .leave (.lock .reader)

def writeLock (lock : Lock) : Outcome Lock Role Point :=
  if lock.activeReaders > 0 ∨ lock.activeWriters > 0 then
    { data := { lock with waitingWriters := lock.waitingWriters + 1 }
      wake := .nobody
      exit := .wait .writer (.retry .writer) }
  else
    { data := { lock with activeWriters := lock.activeWriters + 1 }
      wake := .nobody
      exit := .leave (.unlock .writer) }

def writeUnlock (lock : Lock) : Outcome Lock Role Point where
  data := { lock with activeWriters := lock.activeWriters - 1 }
  wake :=
    if lock.waitingWriters > 0 then .signal .writer
    else if lock.waitingReaders > 0 then .broadcast .reader
    else .nobody
  exit := .leave (.lock .writer)

def sections (_ : Unit) : Point → Lock → Outcome Lock Role Point
  | .lock .reader, lock => readLock lock
  | .retry .reader, lock =>
    readLock { lock with waitingReaders := lock.waitingReaders - 1 }
  | .unlock .reader, lock => readUnlock lock
  | .lock .writer, lock => writeLock lock
  | .retry .writer, lock =>
    writeLock { lock with waitingWriters := lock.waitingWriters - 1 }
  | .unlock .writer, lock => writeUnlock lock

inductive Executes : Point → Lock → Outcome Lock Role Point → Prop
  | readWaits {lock} (busy : 0 < lock.activeWriters ∨ 0 < lock.waitingWriters) :
      Executes (.lock .reader) lock
        ⟨{ lock with waitingReaders := lock.waitingReaders + 1 }, .nobody,
          .wait .reader (.retry .reader)⟩
  | readEnters {lock} (free : lock.activeWriters ≤ 0 ∧ lock.waitingWriters ≤ 0) :
      Executes (.lock .reader) lock
        ⟨{ lock with activeReaders := lock.activeReaders + 1 }, .nobody, .leave (.unlock .reader)⟩
  | readWaitsAgain {lock} (busy : 0 < lock.activeWriters ∨ 0 < lock.waitingWriters) :
      Executes (.retry .reader) lock ⟨lock, .nobody, .wait .reader (.retry .reader)⟩
  | readEntersAgain {lock}
      (free : lock.activeWriters ≤ 0 ∧ lock.waitingWriters ≤ 0) :
      Executes (.retry .reader) lock
        ⟨{ lock with
            activeReaders := lock.activeReaders + 1
            waitingReaders := lock.waitingReaders - 1 }, .nobody,
          .leave (.unlock .reader)⟩
  | readUnlock {lock} : Executes (.unlock .reader) lock (readUnlock lock)
  | writeWaits {lock} (busy : 0 < lock.activeReaders ∨ 0 < lock.activeWriters) :
      Executes (.lock .writer) lock
        ⟨{ lock with waitingWriters := lock.waitingWriters + 1 }, .nobody,
          .wait .writer (.retry .writer)⟩
  | writeEnters {lock} (free : lock.activeReaders ≤ 0 ∧ lock.activeWriters ≤ 0) :
      Executes (.lock .writer) lock
        ⟨{ lock with activeWriters := lock.activeWriters + 1 }, .nobody, .leave (.unlock .writer)⟩
  | writeWaitsAgain {lock} (busy : 0 < lock.activeReaders ∨ 0 < lock.activeWriters) :
      Executes (.retry .writer) lock ⟨lock, .nobody, .wait .writer (.retry .writer)⟩
  | writeEntersAgain {lock}
      (free : lock.activeReaders ≤ 0 ∧ lock.activeWriters ≤ 0) :
      Executes (.retry .writer) lock
        ⟨{ lock with
            activeWriters := lock.activeWriters + 1
            waitingWriters := lock.waitingWriters - 1 }, .nobody,
          .leave (.unlock .writer)⟩
  | writeUnlock {lock} : Executes (.unlock .writer) lock (writeUnlock lock)

theorem executes_sections (choice : Unit) (point : Point) (lock : Lock) :
    Executes point lock (sections choice point lock) := by
  cases point with
  | lock role =>
    cases role with
    | reader =>
      rw [sections, readLock]
      split
      · exact .readWaits ‹_›
      · rename_i free
        exact .readEnters (by omega)
    | writer =>
      rw [sections, writeLock]
      split
      · exact .writeWaits ‹_›
      · rename_i free
        exact .writeEnters (by omega)
  | retry role =>
    cases role with
    | reader =>
      rw [sections, readLock]
      split
      · rw [Int.sub_add_cancel]
        exact .readWaitsAgain ‹_›
      · rename_i free
        exact .readEntersAgain (by simpa using free)
    | writer =>
      rw [sections, writeLock]
      split
      · rw [Int.sub_add_cancel]
        exact .writeWaitsAgain ‹_›
      · rename_i free
        exact .writeEntersAgain (by simpa using free)
  | unlock role =>
    cases role with
    | reader => exact .readUnlock
    | writer => exact .writeUnlock

end BitsAndBytes.WritePrefRwLock
