import BitsAndBytes.Interleaving
import BitsAndBytes.SignedInt
import Mathlib.Algebra.Order.BigOperators.Group.List
import Mathlib.Algebra.Order.Ring.Int

/-! # The scheduler of `multiThreadingInMultiCPU.c` -/

namespace BitsAndBytes.MultiCpu

open Interleaving OperationRuns SignedInt Function List Option

/-- `Thread`, without the `id`, which is only printed. -/
structure Thread where
  lastCpu : Nat
  priority : Int
  isRunning : Bool

def numCpus : Nat := 4

def numThreads : Nat := 8

def maxLoad : Int := 100

structure System where
  threads : List Thread
  currentLoad : Nat → Int
  running : Bool

def initSystem (rands : List (Nat × Nat)) : System where
  threads := rands.map fun rand => ⟨rand.1 % numCpus, (rand.2 % 10 : Nat), false⟩
  currentLoad := fun _ => 0
  running := true

def selectCpu (currentLoad : Nat → Int) (thread : Thread) : Option Nat :=
  if currentLoad thread.lastCpu < maxLoad then some thread.lastCpu
  else
    ((range numCpus).foldl
      (fun selected i => if currentLoad i < selected.2 then (some i, currentLoad i) else selected)
      (none, intMax)).1

def place (cpuId : Nat) (currentLoad : Nat → Int) : List Thread → Option ((Nat → Int) × List Thread)
  | [] => some (currentLoad, [])
  | thread :: rest =>
    if thread.isRunning = false ∧ selectCpu currentLoad thread = some cpuId then do
      let load ← checked (currentLoad cpuId + thread.priority)
      let placed ← place cpuId (update currentLoad cpuId load) rest
      some (placed.1, { thread with isRunning := true, lastCpu := cpuId } :: placed.2)
    else do
      let placed ← place cpuId currentLoad rest
      some (placed.1, thread :: placed.2)

def runsOn (cpuId : Nat) (thread : Thread) : Bool :=
  thread.isRunning && thread.lastCpu == cpuId

def finish (cpuId : Nat) (system : System) : System :=
  { system with
    currentLoad := update system.currentLoad cpuId
      (if system.currentLoad cpuId > 0 then system.currentLoad cpuId - 1 else 0)
    threads := system.threads.map fun thread =>
      if runsOn cpuId thread then { thread with isRunning := false } else thread }

inductive Point
  | test
  | place
  | finish
  | stopped
deriving DecidableEq

def advance (cpuId : Nat) (system : System) : Point → Option (System × Point)
  | .test => some (system, if system.running then .place else .stopped)
  | .place =>
    (place cpuId system.currentLoad system.threads).map fun placed =>
      ({ system with currentLoad := placed.1, threads := placed.2 }, .finish)
  | .finish => some (MultiCpu.finish cpuId system, .test)
  | .stopped => none

inductive Op
  | cpu (cpuId : Nat)
  | stop

def step (config : Config Nat System Point) : Op → Option (Config Nat System Point × Unit)
  | .cpu cpuId =>
    if cpuId < numCpus then
      (advance cpuId config.shared (config.points cpuId)).map fun next =>
        (⟨next.1, update config.points cpuId next.2⟩, ())
    else none
  | .stop => some ({ config with shared.running := false }, ())

def start (rands : List (Nat × Nat)) : Config Nat System Point :=
  ⟨initSystem rands, fun _ => .test⟩

def prioritySum (counts : Thread → Bool) (threads : List Thread) : Int :=
  ((threads.filter counts).map Thread.priority).sum

/-- The load of each CPU is the sum of the priorities of its threads. -/
def LoadsAccounted (system : System) : Prop :=
  ∀ cpuId < numCpus, system.currentLoad cpuId = prioritySum (runsOn cpuId) system.threads

def assignedTo (cpuId : Nat) (thread : Thread) : Bool :=
  thread.lastCpu == cpuId

def waitsFor (cpuId : Nat) (thread : Thread) : Bool :=
  !thread.isRunning && thread.lastCpu == cpuId

section

variable {counts : Thread → Bool} {thread : Thread} {threads : List Thread} {cpuId : Nat}

@[simp]
theorem prioritySum_nil : prioritySum counts [] = 0 := rfl

@[simp]
theorem prioritySum_cons : prioritySum counts (thread :: threads) =
      (if counts thread then thread.priority else 0) + prioritySum counts threads := by
  by_cases counted : counts thread <;> simp [prioritySum, counted]

theorem prioritySum_nonneg (counts : Thread → Bool)
    (nonneg : ∀ thread ∈ threads, 0 ≤ thread.priority) : 0 ≤ prioritySum counts threads :=
  sum_nonneg (forall_mem_map.mpr fun thread member =>
    nonneg thread (mem_of_mem_filter member))

theorem prioritySum_le (counts : Thread → Bool) {bound : Int}
    (bounded : ∀ thread ∈ threads, 0 ≤ thread.priority ∧ thread.priority ≤ bound) :
    prioritySum counts threads ≤ bound * threads.length := by
  induction threads with
  | nil => simp
  | cons thread threads ih =>
    obtain ⟨first, rest⟩ := forall_mem_cons.mp bounded
    have restSum := ih rest
    rw [prioritySum_cons, length_cons, Nat.cast_succ, Int.mul_add, Int.mul_one]
    split <;> omega

theorem prioritySum_assigned : prioritySum (assignedTo cpuId) threads =
      prioritySum (runsOn cpuId) threads + prioritySum (waitsFor cpuId) threads := by
  induction threads with
  | nil => rfl
  | cons thread threads ih =>
    obtain ⟨lastCpu, priority, isRunning⟩ := thread
    simp only [prioritySum_cons, ih, assignedTo, runsOn, waitsFor]
    cases isRunning <;> simp <;> omega

theorem prioritySum_map {change : Thread → Thread}
    (kept : ∀ thread, (change thread).priority = thread.priority) :
    prioritySum counts (threads.map change) =
      prioritySum (fun thread => counts (change thread)) threads := by
  induction threads with
  | nil => rfl
  | cons thread threads ih => simp only [map_cons, prioritySum_cons, kept, ih]

theorem prioritySum_assignedTo_map {change : Thread → Thread}
    (kept : ∀ thread, (change thread).priority = thread.priority)
    (keptCpu : ∀ thread, (change thread).lastCpu = thread.lastCpu) :
    prioritySum (assignedTo cpuId) (threads.map change) =
      prioritySum (assignedTo cpuId) threads := by
  rw [prioritySum_map kept]
  simp only [assignedTo, keptCpu]
  rfl

end

def placeOn (cpuId : Nat) (thread : Thread) : Thread :=
  if thread.lastCpu = cpuId then { thread with isRunning := true } else thread

def takeOff (cpuId : Nat) (thread : Thread) : Thread :=
  if runsOn cpuId thread then { thread with isRunning := false } else thread

section

variable {thread : Thread} {threads : List Thread} {cpuId other : Nat}

@[simp]
theorem placeOn_priority : (placeOn cpuId thread).priority = thread.priority := by
  rw [placeOn]
  split <;> rfl

@[simp]
theorem placeOn_lastCpu : (placeOn cpuId thread).lastCpu = thread.lastCpu := by
  rw [placeOn]
  split <;> rfl

@[simp]
theorem takeOff_priority : (takeOff cpuId thread).priority = thread.priority := by
  rw [takeOff]
  split <;> rfl

@[simp]
theorem takeOff_lastCpu : (takeOff cpuId thread).lastCpu = thread.lastCpu := by
  rw [takeOff]
  split <;> rfl

theorem prioritySum_runsOn_placeOn : prioritySum (runsOn other) (threads.map (placeOn cpuId)) =
      prioritySum (if other = cpuId then assignedTo cpuId else runsOn other) threads := by
  rw [prioritySum_map fun _ => placeOn_priority]
  congr 1
  funext thread
  by_cases mine : thread.lastCpu = cpuId
  · by_cases same : other = cpuId
    · simp [runsOn, placeOn, assignedTo, mine, same]
    · simp [runsOn, placeOn, mine, same, Ne.symm same]
  · by_cases same : other = cpuId
    · simp [runsOn, placeOn, assignedTo, mine, same]
    · simp [runsOn, placeOn, mine, same]

theorem runsOn_takeOff :
    runsOn other (takeOff cpuId thread) = if other = cpuId then false else runsOn other thread := by
  obtain ⟨lastCpu, priority, isRunning⟩ := thread
  cases isRunning with
  | false => simp [takeOff, runsOn]
  | true =>
    by_cases same : other = cpuId
    · by_cases mine : lastCpu = cpuId <;> simp [takeOff, runsOn, mine, same]
    · by_cases mine : lastCpu = cpuId <;> simp [takeOff, runsOn, mine, same, Ne.symm same]

theorem prioritySum_runsOn_takeOff : prioritySum (runsOn other) (threads.map (takeOff cpuId)) =
      if other = cpuId then 0 else prioritySum (runsOn other) threads := by
  rw [prioritySum_map fun _ => takeOff_priority]
  simp only [runsOn_takeOff]
  split
  · simp [prioritySum]
  · rfl

theorem waitsFor_iff :
    waitsFor cpuId thread ↔ thread.isRunning = false ∧ thread.lastCpu = cpuId := by
  simp [waitsFor]

theorem placeOn_of_waitsFor (waits : waitsFor cpuId thread) :
    placeOn cpuId thread = { thread with isRunning := true, lastCpu := cpuId } := by
  obtain ⟨-, rfl⟩ := waitsFor_iff.mp waits
  rw [placeOn, if_pos rfl]

theorem placeOn_of_not_waitsFor (notWaits : ¬ waitsFor cpuId thread) :
    placeOn cpuId thread = thread := by
  rw [waitsFor_iff] at notWaits
  rw [placeOn]
  split
  · rename_i mine
    obtain ⟨lastCpu, priority, isRunning⟩ := thread
    cases isRunning
    · exact absurd ⟨rfl, mine⟩ notWaits
    · rfl
  · rfl

theorem place_eq {currentLoad : Nat → Int} (nonneg : ∀ thread ∈ threads, 0 ≤ thread.priority)
    (loadNonneg : 0 ≤ currentLoad cpuId)
    (light : ∀ other, currentLoad other + prioritySum (waitsFor other) threads < maxLoad) :
    place cpuId currentLoad threads = some (update currentLoad cpuId
          (currentLoad cpuId + prioritySum (waitsFor cpuId) threads),
        threads.map (placeOn cpuId)) := by
  induction threads generalizing currentLoad with
  | nil => simp [place]
  | cons thread threads ih =>
    obtain ⟨first, rest⟩ := forall_mem_cons.mp nonneg
    have restNonneg : ∀ other, 0 ≤ prioritySum (waitsFor other) threads := fun other =>
      prioritySum_nonneg _ rest
    simp only [prioritySum_cons] at light
    have affinity : selectCpu currentLoad thread = some thread.lastCpu := by
      have lastLight := light thread.lastCpu
      have lastNonneg := restNonneg thread.lastCpu
      rw [selectCpu, if_pos]
      split at lastLight <;> omega
    have placed : (thread.isRunning = false ∧ selectCpu currentLoad thread = some cpuId) ↔
        waitsFor cpuId thread := by
      rw [affinity, some.injEq, waitsFor_iff]
    by_cases waits : waitsFor cpuId thread
    · have mineLight := light cpuId
      rw [if_pos waits, maxLoad] at mineLight
      have mineNonneg := restNonneg cpuId
      rw [place, if_pos (placed.mpr waits), bind_eq_bind,
        checked_bind (by rw [intMin]; omega) (by rw [intMax]; omega), ih rest]
      · simp [waits, placeOn_of_waitsFor waits, Int.add_assoc]
      · rw [update_self]
        omega
      · intro other
        by_cases same : other = cpuId
        · subst same
          rw [update_self, maxLoad]
          omega
        · have otherLight := light other
          rw [update_of_ne same]
          split at otherLight <;> omega
    · rw [place, if_neg (mt placed.mp waits), ih rest loadNonneg]
      · simp [waits, placeOn_of_not_waitsFor waits]
      · intro other
        have otherLight := light other
        split at otherLight <;> omega

end

/-- The loads are accounted for, and the sums assigned to the CPUs are the initial ones. -/
structure Sound (rands : List (Nat × Nat)) (system : System) : Prop where
  loads : ∀ cpuId, system.currentLoad cpuId = prioritySum (runsOn cpuId) system.threads
  assigned : ∀ cpuId, prioritySum (assignedTo cpuId) system.threads =
    prioritySum (assignedTo cpuId) (initSystem rands).threads
  nonneg : ∀ thread ∈ system.threads, 0 ≤ thread.priority

section

variable {rands : List (Nat × Nat)} {system : System} {cpuId : Nat}

theorem priorities_initSystem (rands : List (Nat × Nat)) :
    ∀ thread ∈ (initSystem rands).threads, 0 ≤ thread.priority ∧ thread.priority ≤ 9 := by
  intro thread member
  obtain ⟨rand, -, rfl⟩ := mem_map.mp member
  simp only
  omega

theorem sound_initSystem : Sound rands (initSystem rands) where
  loads := fun cpuId => by
    have nobody : ∀ thread ∈ (initSystem rands).threads, ¬ runsOn cpuId thread := by
      intro thread member
      obtain ⟨rand, -, rfl⟩ := mem_map.mp member
      simp [runsOn]
    rw [prioritySum, filter_eq_nil_iff.mpr nobody]
    rfl
  assigned := fun _ => rfl
  nonneg := fun thread member => (priorities_initSystem rands thread member).1

theorem Sound.place_eq (sound : Sound rands system)
    (light : ∀ other, prioritySum (assignedTo other) (initSystem rands).threads < maxLoad) :
    place cpuId system.currentLoad system.threads = some (update system.currentLoad cpuId
          (prioritySum (assignedTo cpuId) (initSystem rands).threads),
        system.threads.map (placeOn cpuId)) := by
  have total : ∀ other, system.currentLoad other + prioritySum (waitsFor other) system.threads =
      prioritySum (assignedTo other) (initSystem rands).threads := fun other => by
    rw [sound.loads, ← prioritySum_assigned, sound.assigned]
  rw [MultiCpu.place_eq sound.nonneg, total]
  · rw [sound.loads]
    exact prioritySum_nonneg _ sound.nonneg
  · intro other
    rw [total]
    exact light other

theorem Sound.place (sound : Sound rands system) {running : Bool} :
    Sound rands ⟨system.threads.map (placeOn cpuId), update system.currentLoad cpuId
      (prioritySum (assignedTo cpuId) (initSystem rands).threads), running⟩ where
  loads := fun other => by
    rw [prioritySum_runsOn_placeOn]
    by_cases same : other = cpuId
    · simp only [same, if_true, update_self, sound.assigned]
    · simp only [same, if_false, update_of_ne same, sound.loads]
  assigned := fun other => by
    rw [prioritySum_assignedTo_map (fun _ => placeOn_priority) fun _ => placeOn_lastCpu,
      sound.assigned]
  nonneg := fun thread member => by
    obtain ⟨before, isBefore, rfl⟩ := mem_map.mp member
    rw [placeOn_priority]
    exact sound.nonneg before isBefore

theorem threads_finish : (finish cpuId system).threads = system.threads.map (takeOff cpuId) := rfl

theorem currentLoad_finish : (finish cpuId system).currentLoad = update system.currentLoad cpuId
      (if system.currentLoad cpuId > 0 then system.currentLoad cpuId - 1 else 0) := rfl

theorem Sound.finish (sound : Sound rands system) (low : system.currentLoad cpuId ≤ 1) :
    Sound rands (finish cpuId system) where
  loads := fun other => by
    rw [threads_finish, currentLoad_finish, prioritySum_runsOn_takeOff]
    by_cases same : other = cpuId
    · subst same
      rw [if_pos rfl, update_self]
      split <;> omega
    · rw [if_neg same, update_of_ne same, sound.loads]
  assigned := fun other => by
    rw [threads_finish, prioritySum_assignedTo_map (fun _ => takeOff_priority) fun _ =>
      takeOff_lastCpu, sound.assigned]
  nonneg := fun thread member => by
    rw [threads_finish] at member
    obtain ⟨before, isBefore, rfl⟩ := mem_map.mp member
    rw [takeOff_priority]
    exact sound.nonneg before isBefore

theorem Sound.step {config next : Config Nat System Point} {op : Op} {out : Unit}
    (low : ∀ cpuId, prioritySum (assignedTo cpuId) (initSystem rands).threads ≤ 1)
    (sound : Sound rands config.shared) (stepEq : step config op = some (next, out)) :
    Sound rands next.shared := by
  cases op with
  | stop =>
    cases stepEq
    exact ⟨sound.loads, sound.assigned, sound.nonneg⟩
  | cpu cpuId =>
    rw [MultiCpu.step, ite_none_right_eq_some] at stepEq
    obtain ⟨-, mapped⟩ := stepEq
    obtain ⟨⟨system, point⟩, advanced, ⟨⟩⟩ := map_eq_some_iff.mp mapped
    generalize config.points cpuId = current at advanced
    cases current with
    | test =>
      cases advanced
      exact sound
    | place =>
      rw [advance, sound.place_eq fun other => by
        have := low other
        rw [maxLoad]
        omega] at advanced
      cases advanced
      exact sound.place
    | finish =>
      cases advanced
      refine sound.finish ?_
      have most := low cpuId
      rw [← sound.assigned, prioritySum_assigned, ← sound.loads] at most
      have waiting := prioritySum_nonneg (waitsFor cpuId) sound.nonneg
      omega
    | stopped => cases advanced

theorem exists_cycle (cpuLt : cpuId < numCpus)
    (light : ∀ other, prioritySum (assignedTo other) (initSystem rands).threads < maxLoad) :
    ∃ config, Reaches step (start rands) [.cpu cpuId, .cpu cpuId, .cpu cpuId] config ∧
      config.shared = finish cpuId ⟨(initSystem rands).threads.map (placeOn cpuId),
        update (initSystem rands).currentLoad cpuId
          (prioritySum (assignedTo cpuId) (initSystem rands).threads), true⟩ := by
  have steps : ∀ {system next : System} {points : Nat → Point} {point : Point},
      advance cpuId system (points cpuId) = some (next, point) →
        MultiCpu.step ⟨system, points⟩ (.cpu cpuId) =
          some (⟨next, update points cpuId point⟩, ()) := by
    intro system next points point advanced
    rw [MultiCpu.step, if_pos cpuLt, advanced]
    rfl
  have placed : advance cpuId (initSystem rands)
      (update (fun _ => Point.test) cpuId .place cpuId) =
        some (⟨(initSystem rands).threads.map (placeOn cpuId),
          update (initSystem rands).currentLoad cpuId
            (prioritySum (assignedTo cpuId) (initSystem rands).threads), true⟩, .finish) := by
    rw [update_self, advance, sound_initSystem.place_eq light]
    rfl
  have finished : ∀ {system : System} {points : Nat → Point},
      advance cpuId system (update points cpuId .finish cpuId) =
        some (MultiCpu.finish cpuId system, .test) := by
    intro system points
    rw [update_self, advance]
  have tested : advance cpuId (initSystem rands) .test = some (initSystem rands, .place) := rfl
  exact ⟨_, reaches_cons.mpr ⟨_, _, steps tested, reaches_cons.mpr ⟨_, _, steps placed,
    reaches_cons.mpr ⟨_, _, steps finished, reaches_nil.mpr rfl⟩⟩⟩, rfl⟩

end

/-- The loads are accounted exactly if the initial priorities of each CPU add up to at most 1. -/
theorem loads_accounted_iff (rands : List (Nat × Nat)) (all : rands.length = numThreads) :
    (∀ ops config, Reaches step (start rands) ops config → LoadsAccounted config.shared) ↔
      ∀ cpuId < numCpus, prioritySum (assignedTo cpuId) (initSystem rands).threads ≤ 1 := by
  constructor
  · intro always cpuId cpuLt
    have light : ∀ other, prioritySum (assignedTo other) (initSystem rands).threads < maxLoad := by
      intro other
      have most := prioritySum_le (assignedTo other) (priorities_initSystem rands)
      rw [show (initSystem rands).threads.length = numThreads by simp [initSystem, all],
        numThreads] at most
      rw [maxLoad]
      omega
    obtain ⟨config, reached, shared⟩ := exists_cycle cpuLt light
    have accounted := always _ config reached cpuId cpuLt
    rw [shared, threads_finish, prioritySum_runsOn_takeOff, if_pos rfl, currentLoad_finish,
      update_self] at accounted
    simp only [update_self] at accounted
    split at accounted <;> omega
  · intro low ops config reached cpuId _
    have lowEverywhere : ∀ cpuId, prioritySum (assignedTo cpuId) (initSystem rands).threads ≤ 1 :=
      by
      intro cpuId
      by_cases inside : cpuId < numCpus
      · exact low cpuId inside
      · have nobody : ∀ thread ∈ (initSystem rands).threads, ¬ assignedTo cpuId thread := by
          intro thread member
          obtain ⟨rand, -, rfl⟩ := mem_map.mp member
          have lt := Nat.mod_lt rand.1 (show 0 < numCpus by decide)
          simp only [assignedTo, beq_iff_eq]
          omega
        rw [prioritySum, filter_eq_nil_iff.mpr nobody]
        decide
    have sound := reached.invariant (fun config => Sound rands config.shared)
      (fun sound stepEq => sound.step lowEverywhere stepEq) sound_initSystem
    exact sound.loads cpuId

def lightRands : List (Nat × Nat) :=
  [(0, 1), (1, 1), (2, 1), (3, 1), (0, 0), (1, 0), (2, 0), (3, 0)]

theorem light_loads_accounted : lightRands.length = numThreads ∧ ∀ ops config,
      Reaches step (start lightRands) ops config → LoadsAccounted config.shared :=
  ⟨rfl, (loads_accounted_iff lightRands rfl).mpr (by decide)⟩

theorem load_left_behind : ∃ config, Reaches step (start ((0, 5) :: replicate 7 (1, 0)))
        [.cpu 0, .cpu 0, .cpu 0] config ∧
      config.shared.currentLoad 0 = 4 ∧ prioritySum (runsOn 0) config.shared.threads = 0 ∧
      ¬ LoadsAccounted config.shared := by
  refine ⟨_, ⟨_, rfl⟩, rfl, by decide, fun accounted => ?_⟩
  exact absurd (accounted 0 (by decide)) (by decide)

end BitsAndBytes.MultiCpu
