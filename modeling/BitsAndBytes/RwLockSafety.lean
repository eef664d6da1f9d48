import BitsAndBytes.RwLock
import Mathlib.Data.Fin.VecNotation

/-! # Who holds the readers-writer lock -/

namespace BitsAndBytes.RwLock

open Interleaving OperationRuns Function Option

variable {Thread : Type*}

def insideCounter : Point → Prop
  | .increment | .testFirst | .lockFirst | .enter => True
  | .decrement | .testLast | .unlockLast | .leave => True
  | .readLock | .reading | .writeLock | .writing => False

def counted : Point → Prop
  | .testFirst | .lockFirst | .enter | .reading | .decrement => True
  | .readLock | .increment | .testLast | .unlockLast | .leave => False
  | .writeLock | .writing => False

def holdsForReaders (readCount : Int) : Point → Prop
  | .enter | .reading | .decrement | .unlockLast => True
  | .testLast => readCount = 0
  | .readLock | .increment | .testFirst | .lockFirst => False
  | .leave | .writeLock | .writing => False

/-- `read_count` counts the readers, and no writer holds the lock that they hold. -/
structure Sound (config : Config Thread (Lock Thread) Point) : Prop where
  counter : Locks insideCounter config.points config.shared.counterLock
  count : Counts (fun t => counted (config.points t)) config.shared.readCount
  first : ∀ {t}, config.points t = .lockFirst → config.shared.readCount = 1
  last : ∀ {t}, config.points t = .unlockLast → config.shared.readCount = 0
  writer : ∀ {t}, config.points t = .writing → config.shared.writeLock = some t
  readers : ∀ {t}, holdsForReaders config.shared.readCount (config.points t) →
    ∃ owner, config.shared.writeLock = some owner ∧ config.points owner ≠ .writing

theorem sound_start (role : Thread → Role) : Sound (start role) := by
  have outside : ∀ t, (role t).start = .readLock ∨ (role t).start = .writeLock := by
    intro t
    cases role t <;> simp [Role.start]
  constructor
  · intro t
    rcases outside t with point | point <;> simp [start, point, insideCounter, rwlockInit]
  · apply counts_zero
    intro t
    rcases outside t with point | point <;> simp [start, point, counted]
  · intro t there
    rcases outside t with point | point <;> simp [start, point] at there
  · intro t there
    rcases outside t with point | point <;> simp [start, point] at there
  · intro t there
    rcases outside t with point | point <;> simp [start, point] at there
  · intro t there
    rcases outside t with point | point <;> simp [start, point, holdsForReaders] at there

theorem eq_reading_of_counted {point : Point} (here : counted point)
    (outside : ¬ insideCounter point) : point = .reading := by
  cases point <;> simp_all [counted, insideCounter]

theorem eq_reading_of_holdsForReaders {readCount : Int} {point : Point}
    (here : holdsForReaders readCount point) (outside : ¬ insideCounter point) :
    point = .reading := by
  cases point <;> simp_all [holdsForReaders, insideCounter]

section

variable {t : Thread} {lock next : Lock Thread} {points : Thread → Point} {point : Point}

theorem readCount_of_moves (locks : Locks insideCounter points lock.counterLock)
    (moved : Moves t lock (points t) next point) {s : Thread} (other : s ≠ t)
    (inside : insideCounter (points s)) : next.readCount = lock.readCount := by
  generalize before : points t = previous at moved
  cases moved with
  | increment | decrement =>
    exact absurd (locks.unique inside (by simp [before, insideCounter])) other
  | _ => rfl

variable [DecidableEq Thread]

theorem inside_before (locks : Locks insideCounter points lock.counterLock)
    (moved : Moves t lock (points t) next point) {s : Thread} {there : Point}
    (after : update points t point s = there)
    (inside : insideCounter there) :
    s = t ∧ point = there ∨ points s = there ∧ next.readCount = lock.readCount := by
  by_cases same : s = t
  · subst same
    rw [update_self] at after
    exact .inl ⟨rfl, after⟩
  · rw [update_of_ne same] at after
    exact .inr ⟨after, readCount_of_moves locks moved same (after ▸ inside)⟩

theorem counter_of_moves (locks : Locks insideCounter points lock.counterLock)
    (moved : Moves t lock (points t) next point) :
    Locks insideCounter (update points t point) next.counterLock := by
  generalize before : points t = previous at moved
  cases moved with
  | readLock free | reading free => exact Locks.acquire (free ▸ locks) trivial
  | enter | leave => exact locks.release (by simp [before, insideCounter]) id
  | _ => exact locks.keep (by simp [before, insideCounter])

theorem count_of_moves
    (counts : Counts (fun s => counted (points s)) lock.readCount)
    (moved : Moves t lock (points t) next point) :
    Counts (fun s => counted (update points t point s))
      next.readCount := by
  generalize before : points t = previous at moved
  cases moved with
  | increment => exact counts.update_enter (by simp [before, counted]) trivial
  | decrement => exact counts.update_leave (by simp [before, counted]) id
  | _ => exact counts.update_same (by simp [before, counted])

end

namespace Sound

variable {config : Config Thread (Lock Thread) Point} {lock : Lock Thread}
  {t : Thread} {point : Point}
variable {s : Thread}

theorem not_writing (sound : Sound config)
    (held : holdsForReaders config.shared.readCount (config.points t)) :
    config.points s ≠ .writing := by
  intro writes
  obtain ⟨owner, owned, notWriting⟩ := sound.readers held
  rw [sound.writer writes, some.injEq] at owned
  rw [← owned] at notWriting
  exact notWriting writes

theorem eq_of_unlockLast (sound : Sound config) (unlocks : config.points t = .unlockLast)
    (held : holdsForReaders config.shared.readCount (config.points s)) : s = t := by
  by_cases inside : insideCounter (config.points s)
  · exact sound.counter.unique inside (by simp [unlocks, insideCounter])
  · have reads := eq_reading_of_holdsForReaders held inside
    have positive := sound.count.pos (t := s) (by simp [reads, counted])
    rw [sound.last unlocks] at positive
    exact absurd positive (lt_irrefl 0)

variable [DecidableEq Thread]

section

variable (sound : Sound config) (moved : Moves t config.shared (config.points t) lock point)
include sound moved

theorem first_of_moves (there : update config.points t point s = .lockFirst) :
    lock.readCount = 1 := by
  rcases inside_before sound.counter moved there trivial with
    ⟨rfl, rfl⟩ | ⟨before, unchanged⟩
  · generalize config.points s = previous at moved
    cases moved with
    | isFirst one => exact one
  · rw [unchanged]
    exact sound.first before

theorem last_of_moves (there : update config.points t point s = .unlockLast) :
    lock.readCount = 0 := by
  rcases inside_before sound.counter moved there trivial with
    ⟨rfl, rfl⟩ | ⟨before, unchanged⟩
  · generalize config.points s = previous at moved
    cases moved with
    | isLast zero => exact zero
  · rw [unchanged]
    exact sound.last before

theorem writer_of_moves (there : update config.points t point s = .writing) :
    lock.writeLock = some s := by
  by_cases same : s = t
  · subst same
    rw [update_self] at there
    subst there
    generalize config.points s = previous at moved
    cases moved with
    | writeLock => rfl
  · rw [update_of_ne same] at there
    have owned := sound.writer there
    generalize before : config.points t = previous at moved
    cases moved with
    | lockFirst free | writeLock free => simp [free] at owned
    | unlockLast =>
      have held : holdsForReaders config.shared.readCount (config.points t) := by
        simp [before, holdsForReaders]
      exact absurd there (sound.not_writing held)
    | writing =>
      rw [sound.writer before, some.injEq] at owned
      exact absurd owned.symm same
    | _ => exact owned

theorem holds_before (notLocking : config.points t ≠ .lockFirst)
    (held : holdsForReaders lock.readCount (update config.points t point s)) :
    ∃ r, holdsForReaders config.shared.readCount (config.points r) := by
  by_cases same : s = t
  · subst same
    generalize before : config.points s = previous at moved
    cases moved with
    | notFirst notOne =>
      obtain ⟨r, other, there⟩ := sound.count.exists_other (t := s)
        (by simp [before, counted]) notOne
      have outside : ¬ insideCounter (config.points r) := fun inside =>
        other (sound.counter.unique inside (by simp [before, insideCounter]))
      refine ⟨r, ?_⟩
      rw [eq_reading_of_counted there outside]
      trivial
    | lockFirst => exact absurd before notLocking
    | enter | reading | decrement => exact ⟨s, by simp [before, holdsForReaders]⟩
    | isLast zero => exact ⟨s, by simp [before, holdsForReaders, zero]⟩
    | _ => exact absurd held (by simp [holdsForReaders])
  · rw [update_of_ne same] at held
    refine ⟨s, ?_⟩
    by_cases inside : insideCounter (config.points s)
    · rw [← readCount_of_moves sound.counter moved same inside]
      exact held
    · rw [eq_reading_of_holdsForReaders held inside]
      trivial

theorem readers_of_moves (held : holdsForReaders lock.readCount (update config.points t point s)) :
    ∃ owner, lock.writeLock = some owner ∧ update config.points t point owner ≠ .writing := by
  by_cases locking : config.points t = .lockFirst
  · rw [locking] at moved
    cases moved with
    | lockFirst free => exact ⟨t, rfl, by simp⟩
  obtain ⟨r, before⟩ := sound.holds_before moved locking held
  obtain ⟨owner, owned, notWriting⟩ := sound.readers before
  have kept : point ≠ .writing → update config.points t point owner ≠ .writing := by
    intro elsewhere
    by_cases same : owner = t
    · subst same
      rwa [update_self]
    · rwa [update_of_ne same]
  generalize pointEq : config.points t = previous at moved
  cases moved with
  | lockFirst => exact absurd pointEq locking
  | writeLock free => simp [free] at owned
  | unlockLast =>
    by_cases same : s = t
    · subst same
      simp [holdsForReaders] at held
    · rw [update_of_ne same] at held
      exact absurd (sound.eq_of_unlockLast pointEq held) same
  | writing => exact absurd pointEq (sound.not_writing before)
  | _ => exact ⟨owner, owned, kept (by simp)⟩

theorem moves : Sound ⟨lock, update config.points t point⟩ where
  counter := counter_of_moves sound.counter moved
  count := count_of_moves sound.count moved
  first := sound.first_of_moves moved
  last := sound.last_of_moves moved
  writer := sound.writer_of_moves moved
  readers := sound.readers_of_moves moved

end

theorem step (sound : Sound config) {next : Config Thread (Lock Thread) Point}
    {out : Unit} (stepEq : RwLock.step config t = some (next, out)) :
    Sound next := by
  obtain ⟨lock, point, moved, rfl⟩ := moves_of_step stepEq
  exact sound.moves moved

end Sound

/-- In every interleaving a writer in its section is alone there. -/
theorem writers_exclude_readers_and_writers [DecidableEq Thread]
    (role : Thread → Role) (schedule : List Thread)
    (config : Config Thread (Lock Thread) Point)
    (reached : Reaches step (start role) schedule config) {writer : Thread}
    (writes : config.points writer = .writing) :
    (∀ reader, config.points reader ≠ .reading) ∧
      ∀ other, config.points other = .writing → other = writer := by
  have sound : Sound config := reached.invariant Sound
    (fun sound stepEq => sound.step stepEq) (sound_start role)
  constructor
  · intro reader reads
    have held : holdsForReaders config.shared.readCount (config.points reader) := by
      rw [reads]
      trivial
    exact sound.not_writing held writes
  · intro other otherWrites
    have owned := sound.writer otherWrites
    rw [sound.writer writes, some.injEq] at owned
    exact owned.symm

theorem writer_excludes_waiting_reader : ∃ config : Config (Fin 2) (Lock (Fin 2)) Point,
      Reaches step (start ![.reader, .writer]) [1, 0, 0, 0] config ∧ config.points 1 = .writing ∧
          (∀ reader, config.points reader ≠ .reading) ∧
            ∀ other, config.points other = .writing → other = 1 := by
  refine ⟨_, ⟨_, rfl⟩, rfl, ?_⟩
  exact writers_exclude_readers_and_writers ![.reader, .writer] [1, 0, 0, 0] _ ⟨_, rfl⟩ rfl

end BitsAndBytes.RwLock
