import BitsAndBytes.UpgradeableRwLock

/-! # Where upgrades of `upgradeableReadLocks.c` hang -/

namespace BitsAndBytes.UpgradeableRwLock

open Interleaving Monitor OperationRuns Function Option Finset

variable {Thread : Type*}

structure Rounds (Thread : Type*) where
  config : Config Thread (Shared Thread Lock Cond) (Place Cond Point)
  left : Thread → Nat

structure Turn (Thread : Type*) where
  thread : Thread
  choice : Choice
  woken : Option Thread

def Turn.op (turn : Turn Thread) : Op Thread Choice :=
  .thread turn.thread turn.choice turn.woken

namespace Rounds

def start (iterations : Thread → Nat) : Rounds Thread :=
  ⟨UpgradeableRwLock.start Thread, iterations⟩

def step [DecidableEq Thread] (rounds : Rounds Thread) (turn : Turn Thread) :
    Option (Rounds Thread × Unit) :=
  if rounds.left turn.thread = 0 then
    none
  else
    (Monitor.step sections rounds.config turn.op).map fun next =>
      if next.1.points turn.thread = .outside .readLock then
        (⟨next.1, update rounds.left turn.thread (rounds.left turn.thread - 1)⟩, ())
      else
        (⟨next.1, rounds.left⟩, ())

/-- Some thread is unfinished, and all unfinished threads wait for a signal. -/
def Stuck (rounds : Rounds Thread) : Prop :=
  (∃ t, rounds.left t ≠ 0) ∧ ∀ t, rounds.left t ≠ 0 → ∃ cond point,
      rounds.config.points t = .blocked cond point ∧ t ∈ rounds.config.shared.waiting cond

end Rounds

/-- An upgrade begins only when no other reader holds the lock. -/
def UpgradesAlone (choice : Choice) (point : Point) (lock : Lock) : Prop :=
  choice = .upgrade → point = .reading → lock.readers ≤ 1

/-- Only readers wait, and only while a thread writes. -/
structure Served (current : View Thread Lock Cond Point) : Prop where
  exclusive : Exclusive current.data current.points
  no_writers : current.data.writers = 0
  no_upgraders : current.data.upgraders = 0
  nobody_upgrading : ∀ t, current.points t ≠ .upgrading
  readers_wait : ∀ {t cond}, t ∈ current.waiting cond →
    cond = .readers ∧ current.points t = .readLock ∧ current.data.isWriting

theorem served_start : Served ⟨init, fun _ => ∅, fun _ : Thread => .readLock⟩ where
  exclusive := exclusive_start
  no_writers := rfl
  no_upgraders := rfl
  nobody_upgrading := fun _ => nofun
  readers_wait := fun waits => absurd waits (notMem_empty _)

section

variable {current : View Thread Lock Cond Point} {t : Thread} {choice : Choice}
  {outcome : Outcome Lock Cond Point}

theorem Served.section (served : Served current)
    (alone : UpgradesAlone choice (current.points t) current.data)
    (executed : Executes choice (current.points t) current.data outcome) :
    outcome.data.writers = 0 ∧ outcome.data.upgraders = 0 ∧
      (outcome.exit = .wait .readers .readLock ∧ outcome.data.isWriting ∧ outcome.wake = .nobody ∨
        (∃ point, outcome.exit = .leave point ∧ point ≠ .upgrading) ∧ (outcome.wake = .nobody ∧
              (current.data.isWriting → outcome.data.isWriting) ∨
            outcome.wake = .broadcast .readers)) := by
  have noWriters := served.no_writers
  have noUpgraders := served.no_upgraders
  have notUpgrading := served.nobody_upgrading t
  have notWriting : HoldsRead (current.points t) → current.data.isWriting ≠ true := by
    intro reads writing
    have positive := served.exclusive.readers.pos reads
    rw [served.exclusive.alone writing] at positive
    exact lt_irrefl _ positive
  have free : HoldsRead (current.points t) → current.data.readers ≤ 1 →
      ¬ Busy current.data .writers := by
    intro reads one busy
    rcases busy with many | someWriter | writing
    · omega
    · omega
    · exact notWriting reads writing
  generalize current.points t = previous at executed alone notUpgrading notWriting free
  cases executed with
  | readWaits busy =>
    rcases busy with someWriter | writing
    · omega
    · exact ⟨noWriters, noUpgraders, .inl ⟨rfl, writing, rfl⟩⟩
  | readEnters =>
    exact ⟨noWriters, noUpgraders, .inr ⟨⟨_, rfl, by decide⟩, .inl ⟨rfl, id⟩⟩⟩
  | readUnlock =>
    have quiet : (readUnlock current.data).wake = .nobody := by
      rw [readUnlock, if_neg]
      omega
    exact ⟨noWriters, noUpgraders, .inr ⟨⟨_, rfl, by decide⟩, .inl ⟨quiet, id⟩⟩⟩
  | upgradeWaits busy => exact absurd busy (free (.inl rfl) (alone rfl rfl))
  | upgradeEnters =>
    exact ⟨noWriters, noUpgraders, .inr ⟨⟨_, rfl, by decide⟩, .inl ⟨rfl, fun _ => rfl⟩⟩⟩
  | upgradeWaitsAgain | upgradeEntersAgain => exact absurd rfl notUpgrading
  | writeUnlock =>
    have wakesAll : (writeUnlock current.data).wake = .broadcast .readers := by
      rw [writeUnlock, if_neg (by omega), if_neg (by omega)]
    exact ⟨noWriters, noUpgraders, .inr ⟨⟨_, rfl, by decide⟩, .inr wakesAll⟩⟩

theorem Served.execute [DecidableEq Thread] {woken : Option Thread}
    {rest : Cond → Finset Thread} (served : Served current)
    (alone : UpgradesAlone choice (current.points t) current.data)
    (executed : Executes choice (current.points t) current.data outcome)
    (awake : ∀ cond, t ∉ current.waiting cond)
    (wakes : outcome.wake.rest current.waiting woken = some rest) :
    Served (current.after t outcome rest) := by
  obtain ⟨noWriters, noUpgraders, does⟩ := served.section alone executed
  refine ⟨served.exclusive.execute executed, noWriters, noUpgraders, ?_, ?_⟩
  · intro s
    by_cases mine : s = t
    · subst mine
      rw [View.after_points_self]
      rcases does with ⟨waits, -⟩ | ⟨⟨point, leaves, other⟩, -⟩
      · rw [waits]
        exact nofun
      · rw [leaves]
        exact other
    · rw [View.after_points_of_ne _ mine]
      exact served.nobody_upgrading s
  · intro s cond waits
    rcases Exit.mem_enqueue waits with stillWaits | ⟨rfl, point, exitEq⟩
    · have waited := Wake.mem_of_mem_rest wakes stillWaits
      obtain ⟨rfl, there, writing⟩ := served.readers_wait waited
      have other : s ≠ t := fun same => awake _ (same ▸ waited)
      refine ⟨rfl, by rwa [View.after_points_of_ne _ other], ?_⟩
      rcases does with ⟨-, stillWriting, -⟩ | ⟨-, ⟨-, stillWriting⟩ | wakesAll⟩
      · exact stillWriting
      · exact stillWriting writing
      · rw [wakesAll] at wakes
        cases wakes
        simp at stillWaits
    · rcases does with ⟨waitsThere, writing, -⟩ | ⟨⟨other, leaves, -⟩, -⟩
      · rw [waitsThere] at exitEq
        cases exitEq
        refine ⟨rfl, ?_, writing⟩
        rw [View.after_points_self, waitsThere]
        rfl
      · rw [leaves] at exitEq
        cases exitEq

theorem Served.wakeup [DecidableEq Thread] (served : Served current) (t : Thread) :
    Served { current with waiting := fun cond => (current.waiting cond).erase t } where
  exclusive := served.exclusive
  no_writers := served.no_writers
  no_upgraders := served.no_upgraders
  nobody_upgrading := served.nobody_upgrading
  readers_wait := fun waits => served.readers_wait (mem_of_mem_erase waits)

end

section

variable [DecidableEq Thread] {iterations : Thread → Nat}
  {schedule : List (Turn Thread)} {rounds next : Rounds Thread} {turn : Turn Thread} {out : Unit}

theorem Rounds.step_cases (stepEq : rounds.step turn = some (next, out)) :
    rounds.left turn.thread ≠ 0 ∧
      Monitor.step sections rounds.config turn.op = some (next.config, out) ∧
        (next.left = rounds.left ∨
          next.config.points turn.thread = .outside .readLock ∧
            next.left = update rounds.left turn.thread (rounds.left turn.thread - 1)) := by
  rw [Rounds.step, ite_none_left_eq_some] at stepEq
  obtain ⟨unfinished, mapped⟩ := stepEq
  obtain ⟨⟨config, result⟩, inner, nextEq⟩ := map_eq_some_iff.mp mapped
  split at nextEq
  · rename_i ended
    cases nextEq
    exact ⟨unfinished, inner, .inr ⟨ended, rfl⟩⟩
  · cases nextEq
    exact ⟨unfinished, inner, .inl rfl⟩

theorem Rounds.matched (stepEq : rounds.step turn = some (next, out)) :
    ∃ out, Monitor.step sections rounds.config turn.op = some (next.config, out) :=
  ⟨out, (step_cases stepEq).2.1⟩

theorem Rounds.outside_of_finished
    (reached : Reaches Rounds.step (Rounds.start iterations) schedule rounds)
    {t : Thread} (finished : rounds.left t = 0) : rounds.config.points t = .outside .readLock := by
  refine reached.invariant (fun rounds => ∀ t, rounds.left t = 0 →
    rounds.config.points t = .outside .readLock) ?_ (fun _ _ => rfl) t finished
  intro rounds turn next out outside stepEq t finished
  obtain ⟨unfinished, inner, ends⟩ := step_cases stepEq
  by_cases mine : t = turn.thread
  · subst mine
    rcases ends with same | ⟨there, -⟩
    · rw [same] at finished
      exact absurd finished unfinished
    · exact there
  · have before : rounds.left t = 0 := by
      rcases ends with same | ⟨-, updated⟩
      · rwa [same] at finished
      · rwa [updated, update_of_ne mine] at finished
    obtain ⟨⟨shared, place⟩, -, nextEq⟩ := map_eq_some_iff.mp inner
    rw [← (Prod.mk.inj nextEq).1]
    exact (update_of_ne mine place rounds.config.points).trans (outside t before)

/-- If every upgrade is begun by the only reader, the threads never hang. -/
theorem not_stuck_of_upgrades_alone (iterations : Thread → Nat)
    (schedule : List (Turn Thread)) (rounds : Rounds Thread)
    (reached : Reaches Rounds.step (Rounds.start iterations) schedule rounds)
    (alone : Respects Rounds.step (fun rounds turn => Permits UpgradesAlone rounds.config turn.op)
      (Rounds.start iterations) schedule) : ¬ rounds.Stuck := by
  rintro ⟨⟨t, unfinished⟩, waiting⟩
  have innerReached := reached.map Rounds.config Turn.op Rounds.matched
  have innerAlone := alone.map Rounds.config Turn.op Rounds.matched id reached
  have served : Served (view rounds.config) := by
    refine (guardedInvariant_of_sections UpgradesAlone Served ?_ ?_ innerReached
      innerAlone served_start).2
    · intro current t choice outcome woken rest served permitted executed awake wakes
      exact served.execute permitted (executed ▸ executes_sections choice _ _) awake wakes
    · intro current t served
      exact served.wakeup t
  obtain ⟨cond, point, -, waits⟩ := waiting t unfinished
  obtain ⟨-, -, writing⟩ := served.readers_wait waits
  obtain ⟨w, writes⟩ := served.exclusive.writing.flag_iff.mp writing
  have working : rounds.left w ≠ 0 := by
    intro finished
    have outside := congrArg Place.point (Rounds.outside_of_finished reached finished)
    exact Point.noConfusion (writes.symm.trans outside)
  obtain ⟨other, there, -, writerWaits⟩ := waiting w working
  have reads := (served.readers_wait writerWaits).2.1
  exact Point.noConfusion (writes.symm.trans reads)

end

def Turn.quiet (t : Thread) (choice : Choice) : Turn Thread := ⟨t, choice, none⟩

def bothUpgrade : List (Turn Bool) :=
  [.quiet true .release, .quiet true .release, .quiet false .release,
    .quiet false .release, .quiet true .upgrade, .quiet true .upgrade,
    .quiet false .upgrade, .quiet false .upgrade]

theorem stuck_after_both_upgrade :
    ∃ rounds, Reaches Rounds.step (Rounds.start fun _ => 1) bothUpgrade rounds ∧ rounds.Stuck := by
  refine ⟨_, ⟨_, rfl⟩, ⟨true, one_ne_zero⟩, ?_⟩
  intro t _
  cases t <;> exact ⟨.writers, .upgrading, rfl, by decide⟩

theorem not_stuck_after_upgrade_alone : ∃ rounds, Reaches Rounds.step (Rounds.start fun _ => 1)
        [.quiet true .release, .quiet true .release, .quiet true .upgrade,
          .quiet true .upgrade] rounds ∧ ¬ rounds.Stuck := by
  refine ⟨_, ⟨_, rfl⟩, ?_⟩
  refine not_stuck_of_upgrades_alone (fun _ : Bool => 1)
    [.quiet true .release, .quiet true .release, .quiet true .upgrade,
      .quiet true .upgrade] _ ⟨_, rfl⟩ ⟨nofun, ?_⟩
  rintro _ _ ⟨⟩
  refine ⟨fun _ _ => nofun, ?_⟩
  rintro _ _ ⟨⟩
  refine ⟨nofun, ?_⟩
  rintro _ _ ⟨⟩
  refine ⟨fun _ _ _ _ => by decide, fun _ _ _ => trivial⟩

end BitsAndBytes.UpgradeableRwLock
