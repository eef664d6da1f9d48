import BitsAndBytes.RoundRobin

/-! # Termination of `round_robin_schedule` -/

namespace BitsAndBytes.RoundRobin

open SignedInt WhileLoop WorkConserving List

structure SameTimes (process other : Process) : Prop where
  arrival : other.arrivalTime = process.arrivalTime
  remaining : other.remainingTime = process.remainingTime
  burst : 0 ≤ other.burstTime ∧ other.burstTime ≤ intMax

structure SameStates (state other : State) : Prop where
  processes : List.Forall₂ SameTimes state.processes other.processes
  currentTime : other.currentTime = state.currentTime
  completed : other.completed = state.completed

variable {processes others scheduled : List Process} {completions : List Nat}

section

variable {clock next : Clock} {process other after : Process} {isCompleted : Bool}

theorem SameTimes.visit (same : SameTimes process other)
    (visited : RoundRobin.visit clock process = some (next, after, isCompleted)) :
    ∃ otherAfter, RoundRobin.visit clock other = some (next, otherAfter, isCompleted) ∧
      SameTimes after otherAfter := by
  obtain ⟨arrival, remaining, burst⟩ := same
  have sameExecution : executionTime other = executionTime process := by
    rw [executionTime, executionTime, remaining]
  unfold RoundRobin.visit at visited ⊢
  rw [arrival, remaining, sameExecution]
  split at visited
  · rename_i ready
    rw [if_pos ready]
    simp only [Option.bind_eq_bind, Option.bind_eq_some_iff, checked_eq_some_iff] at visited
    obtain ⟨_, ⟨rfl, leftLow, leftHigh⟩, _, ⟨rfl, timeLow, timeHigh⟩, visited⟩ := visited
    simp only [Option.bind_eq_bind]
    rw [checked_bind leftLow leftHigh, checked_bind timeLow timeHigh]
    split at visited
    · rename_i finished
      simp only [Option.bind_eq_some_iff, checked_eq_some_iff] at visited
      obtain ⟨_, ⟨rfl, countLow, countHigh⟩, _, ⟨rfl, turnaroundLow, turnaroundHigh⟩, _,
        ⟨rfl, -, -⟩, visited⟩ := visited
      cases visited
      have intMinEq : intMin = -intMax - 1 := by decide
      rw [if_pos finished, checked_bind countLow countHigh,
        checked_bind turnaroundLow turnaroundHigh, checked_bind (by omega) (by omega)]
      exact ⟨_, rfl, rfl, rfl, burst⟩
    · rename_i notFinished
      cases visited
      rw [if_neg notFinished]
      exact ⟨_, rfl, rfl, rfl, burst⟩
  · rename_i notReady
    cases visited
    rw [if_neg notReady]
    exact ⟨other, rfl, arrival, remaining, burst⟩

theorem forLoop_sameTimes {processesAfter : List Process}
    (same : List.Forall₂ SameTimes processes others) {index : Nat}
    (looped : forLoop index clock processes = some (next, processesAfter, completions)) :
    ∃ othersAfter, forLoop index clock others = some (next, othersAfter, completions) ∧
      List.Forall₂ SameTimes processesAfter othersAfter := by
  induction same generalizing index clock processesAfter completions with
  | nil =>
    cases looped
    exact ⟨[], rfl, .nil⟩
  | cons sameFirst _ ih =>
    obtain ⟨middle, firstAfter, isCompleted, restAfter, more, visited, restLooped, rfl,
      rfl⟩ := forLoop_cons.mp looped
    obtain ⟨otherFirst, otherVisited, firstSame⟩ := sameFirst.visit visited
    obtain ⟨otherRest, otherLooped, restSame⟩ := ih restLooped
    refine ⟨otherFirst :: otherRest, ?_, .cons firstSame restSame⟩
    exact forLoop_cons.mpr ⟨_, _, _, _, _, otherVisited, otherLooped, rfl, rfl⟩

theorem SameStates.pass {state other next : State} (same : SameStates state other)
    (passed : RoundRobin.pass state = some (next, completions)) :
    ∃ otherNext, RoundRobin.pass other = some (otherNext, completions) ∧
      SameStates next otherNext := by
  obtain ⟨processes, currentTime, completed⟩ := same
  unfold RoundRobin.pass at passed ⊢
  rw [currentTime, completed]
  simp only [Option.bind_eq_bind, Option.bind_eq_some_iff] at passed
  obtain ⟨⟨clock, after, done⟩, looped, passed⟩ := passed
  obtain ⟨otherAfter, otherLooped, afterSame⟩ := forLoop_sameTimes processes looped
  simp only [otherLooped, Option.bind_eq_bind, Option.bind_some]
  split at passed
  · rename_i executed
    cases passed
    rw [if_pos executed]
    exact ⟨_, rfl, afterSame, rfl, rfl⟩
  · rename_i idle
    simp only [Option.bind_eq_some_iff] at passed
    obtain ⟨later, isLater, passed⟩ := passed
    cases passed
    rw [if_neg idle, isLater, Option.bind_some]
    exact ⟨_, rfl, afterSame, rfl, rfl⟩

theorem RoundRobinSchedule.sameTimes (ended : RoundRobinSchedule processes scheduled completions)
    (same : List.Forall₂ SameTimes processes others) :
    ∃ otherScheduled, RoundRobinSchedule others otherScheduled completions := by
  obtain ⟨passes, last, ⟨iterates, stopped⟩, -, isLog⟩ := ended
  have sameTest : ∀ {state other : State}, SameStates state other →
      unfinished other = unfinished state := by
    intro state other same
    rw [unfinished, unfinished, same.completed, same.processes.length_eq]
  obtain ⟨otherLast, otherIterates, lastSame⟩ := iterates.simulated SameStates sameTest
    (fun same passed => same.pass passed)
    (show SameStates (start processes) (start others) from ⟨same, rfl, rfl⟩)
  refine ⟨otherLast.processes, passes, otherLast, ⟨otherIterates, ?_⟩, rfl, isLog⟩
  rw [sameTest lastSame, stopped]

end

theorem RoundRobinSchedule.remaining_ne_zero
    (ended : RoundRobinSchedule processes scheduled completions) :
    ∀ process ∈ processes, process.remainingTime ≠ 0 := by
  obtain ⟨passes, last, ⟨iterates, stopped⟩, -, -⟩ := ended
  have initially : Counted processes (start processes) [] := ⟨.refl _, rfl⟩
  have counted : Counted processes last passes :=
    iterates.invariant (Counted processes) (fun counted _ passed => counted.pass passed) initially
  have lengths := counted.finished.length_eq
  rw [length_append] at lengths
  have atMost : (finishedFrom 0 last.processes).length ≤ last.processes.length :=
    length_finishedFrom_le
  have enough : (last.processes.length : Int) ≤ last.completed := by
    rw [unfinished, decide_eq_false_iff_not] at stopped
    exact Int.not_lt.mp stopped
  rw [counted.completed] at enough
  have noneFinished : (finishedFrom 0 processes).length = 0 := by omega
  exact finishedFrom_eq_nil_iff.mp (length_eq_zero_iff.mp noneFinished)

def Process.renewed (process : Process) : Process :=
  { process with burstTime := process.remainingTime }

section

variable {processes : List Process}

/-- It ends exactly if every process has something to be executed and no time overflows. -/
theorem terminates_iff_remaining (arrivals : ∀ process ∈ processes, 0 ≤ process.arrivalTime)
    (bursts : ∀ process ∈ processes, 0 ≤ process.burstTime ∧ process.burstTime ≤ intMax)
    (remaining : ∀ process ∈ processes,
      0 ≤ process.remainingTime ∧ process.remainingTime ≤ intMax) :
    (∃ scheduled completions, RoundRobinSchedule processes scheduled completions) ↔
      (∀ process ∈ processes, 0 < process.remainingTime) ∧
        finish 0 (processes.map Process.job) ≤ intMax := by
  by_cases nonempty : processes = []
  · subst nonempty
    refine ⟨fun _ => ⟨nofun, by decide⟩, fun _ => ?_⟩
    exact ⟨[], [], [], start [], ⟨iterates_nil, rfl⟩, rfl, rfl⟩
  have sameJobs : (processes.map Process.renewed).map Process.job = processes.map Process.job := by
    rw [map_map]
    rfl
  have renewedNonempty : processes.map Process.renewed ≠ [] := mt map_eq_nil_iff.mp nonempty
  have fresh : (∀ process ∈ processes, 0 < process.remainingTime) →
      ∀ process ∈ processes.map Process.renewed, Fresh process := by
    intro positive
    refine forall_mem_map.mpr fun process member => ?_
    exact ⟨arrivals process member, positive process member, rfl⟩
  constructor
  · rintro ⟨scheduled, completions, ended⟩
    have positive : ∀ process ∈ processes, 0 < process.remainingTime := by
      intro process member
      exact lt_of_le_of_ne (remaining process member).1
        (ended.remaining_ne_zero process member).symm
    have same : List.Forall₂ SameTimes processes (processes.map Process.renewed) := by
      rw [forall₂_map_right_iff, forall₂_same]
      exact fun process member => ⟨rfl, rfl, remaining process member⟩
    obtain ⟨otherScheduled, otherEnded⟩ := ended.sameTimes same
    refine ⟨positive, ?_⟩
    rw [← sameJobs]
    exact (otherEnded.done renewedNonempty (fresh positive)).2.2.2.2
  · rintro ⟨positive, fits⟩
    rw [← sameJobs] at fits
    obtain ⟨scheduled, completions, ended⟩ := exists_schedule renewedNonempty (fresh positive) fits
    have same : List.Forall₂ SameTimes (processes.map Process.renewed) processes := by
      rw [forall₂_map_left_iff, forall₂_same]
      exact fun process member => ⟨rfl, rfl, bursts process member⟩
    obtain ⟨otherScheduled, otherEnded⟩ := ended.sameTimes same
    exact ⟨otherScheduled, completions, otherEnded⟩

end

theorem terminates_with_remaining_times : ∃ scheduled completions,
      RoundRobinSchedule [⟨1, 0, 7, 7, 0, 0, 0⟩, ⟨2, 2, 4, 4, 0, 0, 0⟩, ⟨3, 4, 1, 1, 0, 0, 0⟩]
        scheduled completions := by
  refine (terminates_iff_remaining ?_ ?_ ?_).mpr ⟨?_, by decide⟩
  · simp
  · simp [intMax]
  · simp [intMax]
  · simp

theorem main_processes_never_completed : ¬ ∃ scheduled completions,
      RoundRobinSchedule [⟨1, 0, 7, 0, 0, 0, 0⟩, ⟨2, 2, 4, 0, 0, 0, 0⟩, ⟨3, 4, 1, 0, 0, 0, 0⟩]
        scheduled completions := by
  rintro ⟨scheduled, completions, ended⟩
  exact ended.remaining_ne_zero _ mem_cons_self rfl

end BitsAndBytes.RoundRobin
