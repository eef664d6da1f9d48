import BitsAndBytes.Interleaving

/-! # The mutex of `preemmtibleCriticalSections.c` -/

namespace BitsAndBytes.RtMutex

open Interleaving OperationRuns Function Option Finset

variable {Thread : Type*}

/-- `rt_mutex_t`, and the threads that sleep in `FUTEX_WAIT`. -/
@[ext]
structure Mutex (Thread : Type*) where
  lock : Int
  owner : Int
  sleepers : Finset Thread

def rtMutexInit : Mutex Thread := ⟨0, -1, ∅⟩

inductive Point
  | tryLock (again : Bool)
  | setOwner
  | futexWait
  | sleeping
  | critical
  | release
  | futexWake
deriving DecidableEq, Repr

section

variable [DecidableEq Thread]

def advance (tid : Int) (t : Thread) (woken : Option Thread) (mutex : Mutex Thread) :
    Point → Option (Mutex Thread × Point)
  | .tryLock _ =>
    if mutex.lock = 0 then
      some ({ mutex with lock := 1 }, .setOwner)
    else
      some (mutex, .futexWait)
  | .setOwner => some ({ mutex with owner := tid }, .critical)
  | .futexWait =>
    if mutex.lock = 1 then
      some ({ mutex with sleepers := insert t mutex.sleepers }, .sleeping)
    else
      some (mutex, .tryLock true)
  | .sleeping => if t ∈ mutex.sleepers then none else some (mutex, .tryLock true)
  | .critical => some ({ mutex with owner := -1 }, .release)
  | .release => some ({ mutex with lock := 0 }, .futexWake)
  | .futexWake =>
    (signal mutex.sleepers woken).map fun rest =>
      ({ mutex with sleepers := rest }, .tryLock false)

structure Op (Thread : Type*) where
  thread : Thread
  woken : Option Thread

def step (tid : Thread → Int) (config : Config Thread (Mutex Thread) Point)
    (op : Op Thread) : Option (Config Thread (Mutex Thread) Point × Unit) :=
  (advance (tid op.thread) op.thread op.woken config.shared
    (config.points op.thread)).map fun next =>
      (⟨next.1, update config.points op.thread next.2⟩, ())

/-- The steps of `rt_mutex_lock` and `rt_mutex_unlock`. -/
inductive Moves (tid : Int) (t : Thread) :
    Mutex Thread → Point → Mutex Thread → Point → Prop
  | acquire {mutex again} (free : mutex.lock = 0) :
      Moves tid t mutex (.tryLock again) { mutex with lock := 1 } .setOwner
  | fail {mutex again} (taken : mutex.lock ≠ 0) :
      Moves tid t mutex (.tryLock again) mutex .futexWait
  | setOwner {mutex} : Moves tid t mutex .setOwner { mutex with owner := tid } .critical
  | sleep {mutex} (taken : mutex.lock = 1) : Moves tid t mutex .futexWait
        { mutex with sleepers := insert t mutex.sleepers } .sleeping
  | stayAwake {mutex} (changed : mutex.lock ≠ 1) :
      Moves tid t mutex .futexWait mutex (.tryLock true)
  | wakeUp {mutex} (woken : t ∉ mutex.sleepers) : Moves tid t mutex .sleeping mutex (.tryLock true)
  | clearOwner {mutex} : Moves tid t mutex .critical { mutex with owner := -1 } .release
  | release {mutex} : Moves tid t mutex .release { mutex with lock := 0 } .futexWake
  | futexWake {mutex woken rest} (wakes : signal mutex.sleepers woken = some rest) :
      Moves tid t mutex .futexWake { mutex with sleepers := rest } (.tryLock false)

theorem moves_of_advance {tid : Int} {t : Thread} {woken : Option Thread}
    {mutex next : Mutex Thread} {point nextPoint : Point}
    (advanced : advance tid t woken mutex point = some (next, nextPoint)) :
    Moves tid t mutex point next nextPoint := by
  cases point with
  | tryLock again =>
    rw [advance] at advanced
    split at advanced <;> cases advanced
    · exact .acquire ‹_›
    · exact .fail ‹_›
  | futexWait =>
    rw [advance] at advanced
    split at advanced <;> cases advanced
    · exact .sleep ‹_›
    · exact .stayAwake ‹_›
  | sleeping =>
    rw [advance, ite_none_left_eq_some] at advanced
    obtain ⟨woken, ⟨⟩⟩ := advanced
    exact .wakeUp woken
  | futexWake =>
    obtain ⟨rest, wakes, ⟨⟩⟩ := map_eq_some_iff.mp advanced
    exact .futexWake wakes
  | _ =>
    cases advanced
    constructor

theorem step_cases {tid : Thread → Int}
    {config next : Config Thread (Mutex Thread) Point} {op : Op Thread} {out : Unit}
    (stepEq : step tid config op = some (next, out)) :
    ∃ t mutex point, Moves (tid t) t config.shared (config.points t) mutex point ∧
      next = ⟨mutex, update config.points t point⟩ := by
  obtain ⟨⟨mutex, point⟩, advanced, ⟨⟩⟩ := map_eq_some_iff.mp stepEq
  exact ⟨op.thread, mutex, point, moves_of_advance advanced, rfl⟩

end

def start (Thread : Type*) : Config Thread (Mutex Thread) Point where
  shared := rtMutexInit
  points := fun _ => .tryLock false

def Holds (point : Point) : Prop :=
  point = .setOwner ∨ point = .critical ∨ point = .release

instance : DecidablePred Holds :=
  fun _ => inferInstanceAs (Decidable (_ ∨ _ ∨ _))

def Sleeps (config : Config Thread (Mutex Thread) Point) (t : Thread) : Prop :=
  config.points t = .sleeping ∧ t ∈ config.shared.sleepers

def Retries (config : Config Thread (Mutex Thread) Point) (t : Thread) : Prop :=
  config.points t = .tryLock true ∨ config.points t = .sleeping ∧ t ∉ config.shared.sleepers

/-- At most one thread has the mutex, and a free mutex with sleepers wakes one. -/
structure Sound (tid : Thread → Int) (config : Config Thread (Mutex Thread) Point) :
    Prop where
  holders : Counts (fun t => Holds (config.points t)) config.shared.lock
  one : config.shared.lock ≤ 1
  owner : ∀ t, config.points t = .critical → config.shared.owner = tid t
  sleepers : ∀ t ∈ config.shared.sleepers, config.points t = .sleeping
  served : config.shared.lock = 0 → config.shared.sleepers.Nonempty →
    ∃ t, config.points t = .futexWake ∨ Retries config t

theorem sound_start (tid : Thread → Int) : Sound tid (start Thread) where
  holders := counts_zero fun _ => by simp [start, Holds]
  one := zero_le_one
  owner := fun _ => nofun
  sleepers := fun _ sleeps => absurd sleeps (notMem_empty _)
  served := fun _ someone => absurd someone not_nonempty_empty

namespace Sound

variable {tid : Thread → Int} {t : Thread}
  {config next : Config Thread (Mutex Thread) Point} {mutex : Mutex Thread} {point : Point}

theorem unique (sound : Sound tid config) {s : Thread} (first : Holds (config.points s))
    (second : Holds (config.points t)) : s = t := sound.holders.unique sound.one first second

variable [DecidableEq Thread]

section

variable (moved : Moves (tid t) t config.shared (config.points t) mutex point)
include moved

theorem lock_of_moves (sound : Sound tid config) :
    mutex.lock = config.shared.lock + (if Holds point then 1 else 0) -
      if Holds (config.points t) then 1 else 0 := by
  have one := sound.one
  have held : Holds (config.points t) → 0 < config.shared.lock := sound.holders.pos
  generalize config.points t = previous at moved held
  cases moved with
  | acquire free => simp [Holds, free]
  | release =>
    have := held (.inr (.inr rfl))
    have isOne : config.shared.lock = 1 := by omega
    simp [Holds, isOne]
  | _ => simp [Holds]

theorem owner_of_moves (sound : Sound tid config) (s : Thread)
    (there : update config.points t point s = .critical) : mutex.owner = tid s := by
  by_cases mine : s = t
  · subst mine
    rw [update_self] at there
    subst there
    generalize config.points s = previous at moved
    cases moved
    rfl
  · rw [update_of_ne mine] at there
    have outside : ¬ Holds (config.points t) :=
      fun holds => mine (sound.unique (.inr (.inl there)) holds)
    have unchanged : mutex.owner = config.shared.owner := by
      generalize config.points t = previous at moved outside
      cases moved with
      | setOwner => exact absurd (.inl rfl) outside
      | clearOwner => exact absurd (.inr (.inl rfl)) outside
      | _ => rfl
    rw [unchanged]
    exact sound.owner s there

theorem sleeper_of_moves {s : Thread}
    (sleeps : s ∈ mutex.sleepers) : s ∈ config.shared.sleepers ∨ s = t ∧ point = .sleeping := by
  generalize config.points t = previous at moved
  cases moved with
  | sleep =>
    rcases mem_insert.mp sleeps with mine | before
    · exact .inr ⟨mine, rfl⟩
    · exact .inl before
  | futexWake wakes =>
    rcases signal_cases wakes with ⟨rfl, -⟩ | ⟨r, -, rfl⟩
    · exact absurd sleeps (notMem_empty s)
    · exact .inl (mem_of_mem_erase sleeps)
  | _ => exact .inl sleeps

theorem sleepers_of_moves (sound : Sound tid config) (s : Thread)
    (sleeps : s ∈ mutex.sleepers) : update config.points t point s = .sleeping := by
  rcases sleeper_of_moves moved sleeps with before | ⟨rfl, asleep⟩
  · have there := sound.sleepers s before
    by_cases mine : s = t
    · subst mine
      rw [there] at moved
      cases moved with
      | wakeUp woken => exact absurd before woken
    · rwa [update_of_ne mine]
  · rwa [update_self]

theorem served_of_moves (sound : Sound tid config)
    (free : mutex.lock = 0) (someone : mutex.sleepers.Nonempty) :
    ∃ s, update config.points t point s = .futexWake ∨
      Retries ⟨mutex, update config.points t point⟩ s := by
  have held : Holds (config.points t) → 0 < config.shared.lock := sound.holders.pos
  have asleep := sound.sleepers
  generalize before : config.points t = previous at moved held
  cases moved with
  | acquire => cases free
  | fail taken => exact absurd free taken
  | setOwner =>
    have := held (.inl rfl)
    simp only at free
    omega
  | sleep taken =>
    simp only at free
    omega
  | stayAwake | wakeUp => exact ⟨t, .inr (.inl (update_self t _ config.points))⟩
  | clearOwner =>
    have := held (.inr (.inl rfl))
    simp only at free
    omega
  | release => exact ⟨t, .inl (update_self t _ config.points)⟩
  | futexWake wakes =>
    rcases signal_cases wakes with ⟨rfl, -⟩ | ⟨s, slept, rfl⟩
    · exact absurd someone not_nonempty_empty
    · have other : s ≠ t := by
        rintro rfl
        rw [asleep s slept] at before
        cases before
      refine ⟨s, .inr (.inr ⟨?_, notMem_erase s _⟩)⟩
      exact (update_of_ne other _ config.points).trans (asleep s slept)

end

theorem step {op : Op Thread} {out : Unit} (sound : Sound tid config)
    (stepEq : RtMutex.step tid config op = some (next, out)) : Sound tid next := by
  obtain ⟨t, mutex, point, moved, rfl⟩ := step_cases stepEq
  have lockEq := sound.lock_of_moves moved
  have holders := lockEq ▸ sound.holders.update Holds
  refine ⟨holders, ?_, sound.owner_of_moves moved, sound.sleepers_of_moves moved,
    sound.served_of_moves moved⟩
  have one := sound.one
  generalize config.points t = previous at moved
  cases moved with
  | acquire => exact le_rfl
  | release => exact zero_le_one
  | _ => exact one

end Sound

/-- One thread at most has the mutex, and no sleeper is forgotten while `lock` is 0. -/
theorem exclusive_and_no_wakeup_lost [DecidableEq Thread] (tid : Thread → Int)
    (schedule : List (Op Thread)) (config : Config Thread (Mutex Thread) Point)
    (reached : Reaches (step tid) (start Thread) schedule config) :
    (∀ s t, Holds (config.points s) → Holds (config.points t) → s = t) ∧
    (∀ t, config.points t = .critical → config.shared.owner = tid t) ∧
    (config.shared.lock = 0 → ∀ s, Sleeps config s →
      ∃ t, t ≠ s ∧ (config.points t = .futexWake ∨ Retries config t)) := by
  have sound : Sound tid config :=
    reached.invariant (Sound tid) (fun sound stepEq => sound.step stepEq) (sound_start tid)
  refine ⟨fun s t => sound.unique, sound.owner, ?_⟩
  rintro free s ⟨asleep, sleeps⟩
  obtain ⟨t, next⟩ := sound.served free ⟨s, sleeps⟩
  refine ⟨t, ?_, next⟩
  rintro rfl
  rcases next with wakes | retries | ⟨-, awake⟩
  · rw [asleep] at wakes
    cases wakes
  · rw [asleep] at retries
    cases retries
  · exact awake sleeps

def releaseWhileSleeping : List (Op Bool) :=
  [⟨true, none⟩, ⟨true, none⟩, ⟨false, none⟩, ⟨false, none⟩, ⟨true, none⟩, ⟨true, none⟩]

theorem sleeper_served_after_release :
    ∃ config, Reaches (step Bool.toInt) (start Bool) releaseWhileSleeping config ∧
      ∃ t, t ≠ false ∧ (config.points t = .futexWake ∨ Retries config t) := by
  refine ⟨_, ⟨_, rfl⟩, ?_⟩
  exact (exclusive_and_no_wakeup_lost Bool.toInt releaseWhileSleeping _
    ⟨_, rfl⟩).2.2 rfl false ⟨rfl, mem_singleton_self _⟩

end BitsAndBytes.RtMutex
