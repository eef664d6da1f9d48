import BitsAndBytes.Interleaving

/-! # The elections of `leaderElection.c` -/

namespace BitsAndBytes.LeaderElection

open Interleaving OperationRuns

variable {Thread : Type*}

def heartbeatTimeout : Int := 3

def numHeartbeats : Nat := 3

/-- The variables that `lock` protects, and the time. -/
@[ext]
structure Election where
  masterId : Int
  masterAlive : Bool
  lastHeartbeatTime : Int
  clock : Int
deriving DecidableEq, Repr

inductive Point
  | follower
  | master (heartbeats : Nat)
  | finished
deriving DecidableEq, Repr

structure Delay where
  before : Nat
  between : Nat

def aliveAt (election : Election) (currentTime : Int) : Bool :=
  if election.masterAlive ∧ currentTime - election.lastHeartbeatTime > heartbeatTimeout then
    false
  else
    election.masterAlive

def advance (id : Int) (delay : Delay) (election : Election) : Point → Option (Election × Point)
  | .follower =>
    let currentTime := election.clock + delay.before
    if aliveAt election currentTime = false then
      some (⟨id, true, currentTime + delay.between, currentTime + delay.between⟩, .master 0)
    else
      some ({ election with clock := currentTime }, .follower)
  | .master heartbeats =>
    let now := election.clock + delay.before
    if heartbeats < numHeartbeats then
      some ({ election with lastHeartbeatTime := now, clock := now }, .master (heartbeats + 1))
    else
      some ({ election with masterAlive := false, clock := now }, .finished)
  | .finished => none

structure Op (Thread : Type*) where
  thread : Thread
  delay : Delay

def step [DecidableEq Thread] (id : Thread → Int) (config : Config Thread Election Point)
    (op : Op Thread) : Option (Config Thread Election Point × Unit) :=
  (advance (id op.thread) op.delay config.shared (config.points op.thread)).map
    fun next => (⟨next.1, Function.update config.points op.thread next.2⟩, ())

def start [DecidableEq Thread] (id : Thread → Int) (first : Thread) (now : Int) :
    Config Thread Election Point where
  shared := ⟨id first, true, now, now⟩
  points := fun t => if t = first then .master 0 else .follower

def IsMaster : Point → Prop
  | .master _ => True
  | .follower | .finished => False

instance : DecidablePred IsMaster
  | .master _ => isTrue trivial
  | .follower | .finished => isFalse id

def OneMaster (config : Config Thread Election Point) : Prop :=
  ∀ s t, IsMaster (config.points s) → IsMaster (config.points t) → s = t

/-- A follower that sees `master_alive` does so before the heartbeat times out. -/
def HeartbeatInTime (config : Config Thread Election Point) (op : Op Thread) : Prop :=
  config.points op.thread = .follower → config.shared.masterAlive →
    config.shared.clock + op.delay.before - config.shared.lastHeartbeatTime ≤ heartbeatTimeout

/-- There is one master if `master_alive` is set, and none otherwise. -/
def Known (config : Config Thread Election Point) : Prop :=
  Counts (fun t => IsMaster (config.points t))
    (if config.shared.masterAlive then 1 else 0)

variable [DecidableEq Thread] {id : Thread → Int}
  {config next : Config Thread Election Point} {op : Op Thread} {out : Unit}

theorem known_start (first : Thread) (now : Int) : Known (start id first now) := by
  refine ⟨{first}, fun t => ?_, rfl⟩
  rw [Finset.mem_singleton, start]
  by_cases isFirst : t = first
  · simp [isFirst, IsMaster]
  · simp [isFirst, IsMaster]

theorem aliveAt_of_inTime {election : Election} {currentTime : Int}
    (inTime : election.masterAlive → currentTime - election.lastHeartbeatTime ≤ heartbeatTimeout) :
    aliveAt election currentTime = election.masterAlive := by
  refine if_neg fun timedOut => ?_
  have := inTime timedOut.1
  omega

theorem alive_of_advance {election after : Election} {i : Int} {delay : Delay}
    {point nextPoint : Point} (inTime : point = .follower → election.masterAlive →
      election.clock + delay.before - election.lastHeartbeatTime ≤ heartbeatTimeout)
    (isAlive : IsMaster point → election.masterAlive)
    (advanced : advance i delay election point = some (after, nextPoint)) :
    (if after.masterAlive then 1 else 0 : Int) = (if election.masterAlive then 1 else 0) +
        (if IsMaster nextPoint then 1 else 0) - if IsMaster point then 1 else 0 := by
  cases point with
  | follower =>
    simp only [advance, aliveAt_of_inTime (inTime rfl)] at advanced
    split at advanced
    · rename_i dead
      cases advanced
      simp [IsMaster, dead]
    · cases advanced
      simp [IsMaster]
  | master heartbeats =>
    simp only [advance] at advanced
    split at advanced
    · cases advanced
      simp [IsMaster]
    · cases advanced
      simp [IsMaster, isAlive trivial]
  | finished => cases advanced

theorem Known.step (known : Known config) (inTime : HeartbeatInTime config op)
    (stepEq : LeaderElection.step id config op = some (next, out)) : Known next := by
  obtain ⟨⟨election, point⟩, advanced, ⟨⟩⟩ := Option.map_eq_some_iff.mp stepEq
  have isAlive : IsMaster (config.points op.thread) → config.shared.masterAlive :=
    fun isMaster => (Counts.flag_iff known).mpr ⟨_, isMaster⟩
  rw [Known, alive_of_advance inTime isAlive advanced]
  exact Counts.update IsMaster known

theorem Known.second_master (known : Known config) (late : ¬ HeartbeatInTime config op) :
    ∃ next out, LeaderElection.step id config op = some (next, out) ∧ ¬ OneMaster next := by
  simp only [HeartbeatInTime, Classical.not_imp, not_le] at late
  obtain ⟨isFollower, isAlive, tooOld⟩ := late
  obtain ⟨master, isMaster⟩ := (Counts.flag_iff known).mp isAlive
  have dead : aliveAt config.shared (config.shared.clock + op.delay.before) = false :=
    if_pos ⟨isAlive, tooOld⟩
  refine ⟨_, (), by rw [LeaderElection.step, isFollower, advance, if_pos dead]; rfl, ?_⟩
  have other : master ≠ op.thread := by
    rintro rfl
    rw [isFollower] at isMaster
    exact isMaster
  intro oneMaster
  refine other (oneMaster master op.thread ?_ ?_)
  · simpa [other] using isMaster
  · simp [IsMaster]

/-- There is one master at most exactly if no follower finds a live master's heartbeat too old. -/
theorem one_master_iff_heartbeats_in_time (id : Thread → Int) (first : Thread)
    (now : Int) (ops : List (Op Thread)) :
    (∀ initialOps, initialOps <+: ops → ∀ config,
        Reaches (step id) (start id first now) initialOps config → OneMaster config) ↔
      Respects (step id) HeartbeatInTime (start id first now) ops :=
  always_iff_respects Known OneMaster (fun known _ _ => Counts.unique_of_flag known)
    (fun known inTime stepEq => known.step inTime stepEq)
    (fun known late => known.second_master late) (known_start first now) ops

theorem two_masters_after_delay :
    ∃ config, Reaches (step Bool.toInt) (start Bool.toInt false 0) [⟨true, ⟨4, 0⟩⟩] config ∧
      ¬ OneMaster config := by
  refine ⟨_, ⟨_, rfl⟩, fun oneMaster => ?_⟩
  exact Bool.false_ne_true (oneMaster false true trivial trivial)

end BitsAndBytes.LeaderElection
