import BitsAndBytes.WritePrefRwLock

/-! # No lost wake-ups in the writer-preferring lock -/

namespace BitsAndBytes.WritePrefRwLock

open Interleaving Monitor OperationRuns Finset

namespace Lock

def active (lock : Lock) : Role → Int
  | .reader => lock.activeReaders
  | .writer => lock.activeWriters

def waiting (lock : Lock) : Role → Int
  | .reader => lock.waitingReaders
  | .writer => lock.waitingWriters

end Lock

variable {Thread : Type*}

/-- The counters count the threads that hold the lock and those that wait. -/
structure Counted (lock : Lock) (points : Thread → Point) : Prop where
  active : ∀ role, Counts (fun t => points t = .unlock role) (lock.active role)
  waiting : ∀ role, Counts (fun t => points t = .retry role) (lock.waiting role)

def Busy (lock : Lock) : Role → Prop
  | .reader => 0 < lock.activeWriters ∨ 0 < lock.waitingWriters
  | .writer => 0 < lock.activeReaders ∨ 0 < lock.activeWriters

/-- Writers exclude others, and one is woken when the lock becomes free while they wait. -/
structure Fair (current : View Thread Lock Role Point) : Prop where
  counted : Counted current.data current.points
  one_writer : current.data.activeWriters ≤ 1
  no_reader : 0 < current.data.activeWriters → current.data.activeReaders = 0
  waits : ∀ {t role}, t ∈ current.waiting role → current.points t = .retry role
  writer_woken : current.data.activeReaders = 0 → current.data.activeWriters = 0 →
    (current.waiting .writer).Nonempty →
      ∃ w, current.points w = .retry .writer ∧ w ∉ current.waiting .writer
  writer_first : (current.waiting .reader).Nonempty → Busy current.data .reader

section

variable {t : Thread} {lock : Lock} {points : Thread → Point} {point : Point}
  {outcome : Outcome Lock Role Point}

theorem counters_of_executes (executed : Executes point lock outcome) (role : Role) :
    outcome.data.active role = lock.active role +
        (if outcome.exit.place.point = .unlock role then 1 else 0) -
          (if point = .unlock role then 1 else 0) ∧
      outcome.data.waiting role = lock.waiting role +
        (if outcome.exit.place.point = .retry role then 1 else 0) -
          if point = .retry role then 1 else 0 := by
  cases executed <;> cases role <;>
    simp [Lock.active, Lock.waiting, Exit.place, Place.point, readUnlock, writeUnlock]

theorem Counted.execute [DecidableEq Thread] (counted : Counted lock points)
    (executed : Executes (points t) lock outcome) :
    Counted outcome.data (Function.update points t outcome.exit.place.point) where
  active := fun role => by
    rw [(counters_of_executes executed role).1]
    exact (counted.active role).update (· = Point.unlock role)
  waiting := fun role => by
    rw [(counters_of_executes executed role).2]
    exact (counted.waiting role).update (· = Point.retry role)

section

variable (counted : Counted lock points) (executed : Executes (points t) lock outcome)
include counted executed

theorem exclusive_of_executes (one_writer : lock.activeWriters ≤ 1)
    (no_reader : 0 < lock.activeWriters → lock.activeReaders = 0) :
    outcome.data.activeWriters ≤ 1 ∧
      (0 < outcome.data.activeWriters → outcome.data.activeReaders = 0) := by
  have readers : 0 ≤ lock.activeReaders := (counted.active .reader).nonneg
  generalize before : points t = previous at executed
  cases executed with
  | readUnlock =>
    have held : 0 < lock.activeReaders := (counted.active .reader).pos before
    simp only [readUnlock]
    omega
  | writeUnlock =>
    simp only [writeUnlock]
    omega
  | _ =>
    simp only
    omega

theorem wake_of_executes (noReaders : outcome.data.activeReaders = 0)
    (noWriters : outcome.data.activeWriters = 0) (waits : 0 < lock.waitingWriters) :
    outcome.wake = .signal .writer ∨
      lock.activeReaders = 0 ∧ lock.activeWriters = 0 ∧ points t ≠ .retry .writer ∧
        outcome.wake = .nobody := by
  have writers : 0 ≤ lock.activeWriters := (counted.active .writer).nonneg
  generalize points t = previous at executed
  cases executed with
  | readWaits | readWaitsAgain => exact .inr ⟨noReaders, noWriters, nofun, rfl⟩
  | readUnlock => exact .inl (if_pos ⟨noReaders, waits⟩)
  | writeUnlock => exact .inl (if_pos waits)
  | _ =>
    simp only at noReaders noWriters
    omega

theorem broadcast_of_executes (busy : Busy lock .reader) (waits : 0 < lock.waitingReaders) :
    outcome.wake = .broadcast .reader ∨ Busy outcome.data .reader := by
  have active : 0 ≤ lock.activeWriters := (counted.active .writer).nonneg
  generalize before : points t = previous at executed
  cases executed with
  | readUnlock => exact .inr busy
  | writeWaitsAgain =>
    have counted : 0 < lock.waitingWriters := (counted.waiting .writer).pos before
    exact .inr (.inr counted)
  | writeUnlock =>
    by_cases someWriter : lock.waitingWriters > 0
    · exact .inr (.inr someWriter)
    · exact .inl ((if_neg someWriter).trans (if_pos waits))
  | _ =>
    right
    simp only [Busy] at busy ⊢
    omega

end

theorem wait_of_executes {role : Role} {next : Point}
    (executed : Executes point lock outcome) (waits : outcome.exit = .wait role next) :
    next = .retry role ∧ Busy outcome.data role := by
  cases executed with
  | readWaits busy | readWaitsAgain busy | writeWaits busy | writeWaitsAgain busy =>
    cases waits
    exact ⟨rfl, busy⟩
  | _ => cases waits

theorem no_writer_of_executes (executed : Executes point lock outcome)
    (enters : outcome.exit.place.point = .unlock .reader) : lock.waitingWriters ≤ 0 := by
  cases executed with
  | readEnters free | readEntersAgain free => exact free.2
  | _ => cases enters

end

section

variable [DecidableEq Thread] {current : View Thread Lock Role Point}

namespace Fair

variable {t : Thread} {outcome : Outcome Lock Role Point} {woken : Option Thread}
  {rest : Role → Finset Thread}

section

variable (fair : Fair current) (executed : Executes (current.points t) current.data outcome)
include fair executed

theorem waits_of_executes (awake : ∀ role, t ∉ current.waiting role)
    (wakes : outcome.wake.rest current.waiting woken = some rest) {s : Thread} {role : Role}
    (waits : s ∈ (current.after t outcome rest).waiting role) :
    (current.after t outcome rest).points s = .retry role := by
  rcases Exit.mem_enqueue waits with stillWaits | ⟨rfl, point, exitEq⟩
  · have waited := Wake.mem_of_mem_rest wakes stillWaits
    have other : s ≠ t := fun same => awake role (same ▸ waited)
    rw [View.after_points_of_ne _ other]
    exact fair.waits waited
  · rw [View.after_points_self, exitEq]
    exact (wait_of_executes executed exitEq).1

theorem writer_woken_of_executes (awake : ∀ role, t ∉ current.waiting role)
    (wakes : outcome.wake.rest current.waiting woken = some rest)
    (noReaders : outcome.data.activeReaders = 0) (noWriters : outcome.data.activeWriters = 0)
    (someone : ((current.after t outcome rest).waiting .writer).Nonempty) :
    ∃ w, (current.after t outcome rest).points w = .retry .writer ∧
      w ∉ (current.after t outcome rest).waiting .writer := by
  have stays : ∀ {w}, current.points w = .retry .writer → w ≠ t → w ∉ rest .writer →
      ∃ w, (current.after t outcome rest).points w = .retry .writer ∧
        w ∉ (current.after t outcome rest).waiting .writer := by
    intro w there other notWaiting
    refine ⟨w, by rwa [View.after_points_of_ne _ other], fun waits => ?_⟩
    rcases Exit.mem_enqueue waits with stillWaits | ⟨same, -⟩
    · exact notWaiting stillWaits
    · exact other same
  obtain ⟨s, waits⟩ := someone
  rcases Exit.mem_enqueue waits with stillWaits | ⟨-, point, exitEq⟩
  · have waited := Wake.mem_of_mem_rest wakes stillWaits
    have waiting : 0 < current.data.waitingWriters :=
      (fair.counted.waiting .writer).pos (fair.waits waited)
    rcases wake_of_executes fair.counted executed noReaders noWriters waiting with
      signals | ⟨readersBefore, writersBefore, notWriter, nobody⟩
    · rw [signals] at wakes
      obtain ⟨w, wWaited, wWoken⟩ := Wake.exists_woken wakes ⟨s, stillWaits⟩
      exact stays (fair.waits wWaited) (fun same => awake _ (same ▸ wWaited)) wWoken
    · rw [nobody] at wakes
      cases wakes
      obtain ⟨w, there, wWoken⟩ := fair.writer_woken readersBefore writersBefore ⟨s, waited⟩
      exact stays there (fun same => notWriter (same ▸ there)) wWoken
  · have busy := (wait_of_executes executed exitEq).2
    simp only [Busy] at busy
    omega

theorem writer_first_of_executes (wakes : outcome.wake.rest current.waiting woken = some rest)
    (someone : ((current.after t outcome rest).waiting .reader).Nonempty) :
    Busy outcome.data .reader := by
  obtain ⟨s, waits⟩ := someone
  rcases Exit.mem_enqueue waits with stillWaits | ⟨-, point, exitEq⟩
  · have waited := Wake.mem_of_mem_rest wakes stillWaits
    have waiting : 0 < current.data.waitingReaders :=
      (fair.counted.waiting .reader).pos (fair.waits waited)
    rcases broadcast_of_executes fair.counted executed
      (fair.writer_first ⟨s, waited⟩) waiting with broadcasts | busy
    · rw [broadcasts] at wakes
      cases wakes
      simp at stillWaits
    · exact busy
  · exact (wait_of_executes executed exitEq).2

theorem execute (awake : ∀ role, t ∉ current.waiting role)
    (wakes : outcome.wake.rest current.waiting woken = some rest) :
    Fair (current.after t outcome rest) := by
  have exclusive := exclusive_of_executes fair.counted executed fair.one_writer fair.no_reader
  exact
    { counted := fair.counted.execute executed
      one_writer := exclusive.1
      no_reader := exclusive.2
      waits := fair.waits_of_executes executed awake wakes
      writer_woken := fair.writer_woken_of_executes executed awake wakes
      writer_first := fair.writer_first_of_executes executed wakes }

end

theorem wakeup (fair : Fair current) (t : Thread) :
    Fair { current with waiting := fun role => (current.waiting role).erase t } where
  counted := fair.counted
  one_writer := fair.one_writer
  no_reader := fair.no_reader
  waits := fun waits => fair.waits (mem_of_mem_erase waits)
  writer_woken := by
    rintro noReaders noWriters ⟨s, waits⟩
    obtain ⟨w, there, wWoken⟩ := fair.writer_woken noReaders noWriters
      ⟨s, mem_of_mem_erase waits⟩
    exact ⟨w, there, fun stillWaits => wWoken (mem_of_mem_erase stillWaits)⟩
  writer_first := by
    rintro ⟨s, waits⟩
    exact fair.writer_first ⟨s, mem_of_mem_erase waits⟩

theorem step {after : View Thread Lock Role Point} (fair : Fair current)
    (executed : SectionStep sections current after) : Fair after := by
  cases executed with
  | @execute t choice _ _ _ executed awake wakes =>
    exact fair.execute (executed ▸ executes_sections choice _ _) awake wakes
  | wakeup t => exact fair.wakeup t

end Fair

end

theorem fair_start (role : Thread → Role) : Fair ⟨init, fun _ => ∅, fun t => .lock (role t)⟩ where
  counted :=
    { active := fun role => by cases role <;> exact counts_zero (fun _ => nofun)
      waiting := fun role => by cases role <;> exact counts_zero (fun _ => nofun) }
  one_writer := zero_le_one
  no_reader := nofun
  waits := fun waits => absurd waits (notMem_empty _)
  writer_woken := fun _ _ someone => absurd someone not_nonempty_empty
  writer_first := fun someone => absurd someone not_nonempty_empty

def start (role : Thread → Role) : Config Thread (Shared Thread Lock Role) (Place Role Point) :=
  Monitor.start init fun t => .lock (role t)

def Holds (role : Role) (place : Place Role Point) : Prop :=
  place.point = .unlock role

def InCondWait (role : Role) (place : Place Role Point) : Prop :=
  place = .blocked role (.retry role)

/-- A thread that tries again is blocked or inside. -/
def Seated : Place Role Point → Prop
  | .outside point => ∀ role, point ≠ .retry role
  | .inside _ => True
  | .blocked role point => point = .retry role

section

variable [DecidableEq Thread] {role : Thread → Role}
  {schedule : List (Op Thread Unit)}
  {config next : Config Thread (Shared Thread Lock Role) (Place Role Point)}

section

variable (reached : Reaches (step sections) (start role) schedule config)
include reached

theorem fair_of_reaches : Monitor.Sound config ∧ Fair (view config) :=
  invariant_of_sections Fair (fun fair executed => fair.step executed) reached (fair_start role)

theorem seated_of_reaches (t : Thread) : Seated (config.points t) := by
  refine places_of_reaches Seated (fun _ => trivial) ?_ reached (fun _ _ => nofun) t
  intro choice point lock _
  have executed := executes_sections choice point lock
  generalize sections choice point lock = outcome at executed
  cases executed <;> first | rfl | exact fun _ => nofun

theorem no_writer_waits_of_entering {op : Op Thread Unit} {out : Unit}
    (stepEq : step sections config op = some (next, out)) {reader writer : Thread}
    (before : ¬ Holds .reader (config.points reader)) (now : Holds .reader (next.points reader)) :
    ¬ InCondWait .writer (config.points writer) := by
  intro waits
  obtain ⟨sound, fair⟩ := fair_of_reaches reached
  have waiting : 0 < (view config).data.waitingWriters :=
    (fair.counted.waiting .writer).pos (congrArg Place.point waits)
  have here := before
  have there : (view next).points reader = .unlock .reader := now
  rcases view_step sound stepEq with same | executed
  · rw [same] at there
    exact here there
  · generalize view next = after at executed there
    cases executed with
    | @execute t choice outcome _ _ executed awake wakes =>
      by_cases mine : reader = t
      · subst mine
        rw [View.after_points_self] at there
        have := no_writer_of_executes
          (executed ▸ executes_sections choice _ (view config).data) there
        omega
      · rw [View.after_points_of_ne _ mine] at there
        exact here there
    | wakeup t => exact here there

theorem inCondWait_of_retry (free : config.shared.mutex = none) {t : Thread} {role : Role}
    (there : (config.points t).point = .retry role) : InCondWait role (config.points t) := by
  have seated := seated_of_reaches reached t
  have outside : ¬ isInside (config.points t) := by
    intro inside
    have owned := ((fair_of_reaches reached).1.mutex t).mp inside
    rw [free] at owned
    cases owned
  generalize config.points t = place at seated outside there
  cases place with
  | outside point => exact absurd there (seated role)
  | inside point => exact absurd trivial outside
  | blocked other point =>
    cases seated
    cases there
    rfl

theorem exists_woken_of_free (free : config.shared.mutex = none)
    (nobody : ∀ t role, ¬ Holds role (config.points t))
    (someone : ∃ t role, InCondWait role (config.points t)) :
    ∃ t role, InCondWait role (config.points t) ∧ t ∉ config.shared.waiting role := by
  obtain ⟨sound, fair⟩ := fair_of_reaches reached
  have noReaders : config.shared.data.activeReaders = 0 :=
    (fair.counted.active .reader).eq_zero fun t => nobody t .reader
  have noWriters : config.shared.data.activeWriters = 0 :=
    (fair.counted.active .writer).eq_zero fun t => nobody t .writer
  obtain ⟨t, role, inWait⟩ := someone
  by_cases waits : t ∈ config.shared.waiting role
  · have someWriter : ∃ w, (config.points w).point = .retry .writer := by
      cases role with
      | reader =>
        rcases fair.writer_first ⟨t, waits⟩ with active | waiting
        · exact absurd noWriters active.ne.symm
        · exact (fair.counted.waiting .writer).exists_of_pos waiting
      | writer => exact ⟨t, congrArg Place.point inWait⟩
    obtain ⟨w, there⟩ := someWriter
    by_cases writerWaits : w ∈ config.shared.waiting .writer
    · obtain ⟨woken, here, isWoken⟩ := fair.writer_woken noReaders noWriters ⟨w, writerWaits⟩
      exact ⟨woken, .writer, inCondWait_of_retry reached free here, isWoken⟩
    · exact ⟨w, .writer, inCondWait_of_retry reached free there, writerWaits⟩
  · exact ⟨t, role, inWait, waits⟩

end

/-- No reader enters while a writer waits, and no wake-up is lost. -/
theorem writers_preferred_and_no_wakeup_lost (role : Thread → Role)
    (schedule : List (Op Thread Unit))
    (config : Config Thread (Shared Thread Lock Role) (Place Role Point))
    (reached : Reaches (step sections) (start role) schedule config) :
    (config.shared.data.activeWriters ≤ 1 ∧ (0 < config.shared.data.activeWriters →
        config.shared.data.activeReaders = 0)) ∧
    (∀ op next out, step sections config op = some (next, out) →
      ∀ reader, ¬ Holds .reader (config.points reader) → Holds .reader (next.points reader) →
          ∀ writer, ¬ InCondWait .writer (config.points writer)) ∧
    (config.shared.mutex = none → (∀ t role, ¬ Holds role (config.points t)) →
      (∃ t role, InCondWait role (config.points t)) →
        ∃ t role, InCondWait role (config.points t) ∧ t ∉ config.shared.waiting role) := by
  obtain ⟨-, fair⟩ := fair_of_reaches reached
  refine ⟨⟨fair.one_writer, fair.no_reader⟩, ?_, exists_woken_of_free reached⟩
  intro op next out stepEq reader before now writer
  exact no_writer_waits_of_entering reached stepEq before now

end

def handover : List (Op Role Unit) :=
  [.thread .reader () none, .thread .reader () none, .thread .writer () none,
    .thread .writer () none, .thread .reader () none,
    .thread .reader () (some .writer)]

theorem writer_woken_by_leaving_reader :
    ∃ config, Reaches (step sections) (start id) handover config ∧
      ∃ t role, InCondWait role (config.points t) ∧ t ∉ config.shared.waiting role := by
  refine ⟨_, ⟨_, rfl⟩, ?_⟩
  refine (writers_preferred_and_no_wakeup_lost id handover _
    ⟨_, rfl⟩).2.2 rfl ?_ ⟨.writer, .writer, rfl⟩
  intro t role
  cases t <;> exact Point.noConfusion

end BitsAndBytes.WritePrefRwLock
