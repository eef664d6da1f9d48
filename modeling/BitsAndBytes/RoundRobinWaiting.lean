import BitsAndBytes.RoundRobin
import Mathlib.Tactic.Ring

/-! # Bounded waiting under `round_robin_schedule` -/

namespace BitsAndBytes.RoundRobin

open SignedInt WhileLoop WorkConserving List Option

variable {clock next : Clock} {isCompleted : Bool}

/-- What a completed process among `n` of them has waited. -/
structure BoundedWaiting (n : Nat) (process : Process) : Prop where
  waiting_eq : process.waitingTime =
    process.completionTime - process.arrivalTime - process.burstTime
  nonneg : 0 ≤ process.waitingTime
  le : process.waitingTime ≤
    timeQuantum * (n - 1) * ((process.burstTime + timeQuantum - 1) / timeQuantum)

/-- A visit gives the process a quantum, or the rest of its work. -/
inductive Turn (currentTime : Int) (process : Process) : Int → Process → Prop
  | skip (notReady : ¬ Ready currentTime process) : Turn currentTime process currentTime process
  | quantum (ready : Ready currentTime process) (more : timeQuantum < process.remainingTime) :
      Turn currentTime process (currentTime + timeQuantum) (process.execute timeQuantum)
  | rest (ready : Ready currentTime process) (within : process.remainingTime ≤ timeQuantum) :
      Turn currentTime process (currentTime + process.remainingTime)
        (process.complete (currentTime + process.remainingTime))

/-- The process has waited for at most one quantum of each other process per visit. -/
structure Waits (n turns visits : Nat) (currentTime : Int) (process : Process) : Prop where
  unfinished : 0 < process.remainingTime
  executed : process.burstTime = process.remainingTime + timeQuantum * visits
  since : 0 < visits → process.arrivalTime + timeQuantum * visits ≤ currentTime
  bounded : process.arrivalTime ≤ currentTime →
    currentTime ≤ process.arrivalTime + timeQuantum * visits +
      timeQuantum * ((n - 1) * visits + turns : Nat)

def WaitsOrDone (n turns : Nat) (currentTime : Int) (process : Process) : Prop :=
  (∃ visits, Waits n turns visits currentTime process) ∨
    process.remainingTime = 0 ∧ BoundedWaiting n process

section

variable {n turns : Nat} {currentTime later : Int} {process after : Process}

theorem currentTime_of_visit (visited : visit clock process = some (next, after, isCompleted))
    (ready : Ready clock.currentTime process) :
    next.currentTime = clock.currentTime + executionTime process := by
  unfold Ready at ready
  rw [visit, if_pos ready] at visited
  simp only [bind_eq_bind, bind_eq_some_iff, checked_eq_some_iff] at visited
  obtain ⟨_, ⟨rfl, -⟩, _, ⟨rfl, -⟩, visited⟩ := visited
  split at visited
  · simp only [bind_eq_some_iff] at visited
    obtain ⟨_, -, _, -, _, -, visited⟩ := visited
    cases visited
    rfl
  · cases visited
    rfl

theorem turn_of_visit (visited : visit clock process = some (next, after, isCompleted)) :
    Turn clock.currentTime process next.currentTime after := by
  have execution : executionTime process = timeQuantum ∧ timeQuantum < process.remainingTime ∨
      executionTime process = process.remainingTime ∧ process.remainingTime ≤ timeQuantum := by
    rw [executionTime]
    split <;> omega
  cases visit_cases visited with
  | skip notReady => exact .skip notReady
  | @execute time ready positive within fits =>
    have taken := currentTime_of_visit visited ready
    simp only at taken
    obtain ⟨quantum, more⟩ : time = timeQuantum ∧ timeQuantum < process.remainingTime := by
      omega
    subst quantum
    exact .quantum ready more
  | complete ready fits =>
    have taken := currentTime_of_visit visited ready
    simp only at taken
    exact .rest ready (by omega)

theorem Turn.le (turn : Turn currentTime process later after) :
    currentTime ≤ later ∧ later ≤ currentTime + timeQuantum := by
  have quantumPos : 0 < timeQuantum := by decide
  cases turn with
  | skip => omega
  | quantum => omega
  | rest ready within =>
    have := ready.1
    omega

theorem WaitsOrDone.other (waits : WaitsOrDone n turns currentTime process)
    (le : currentTime ≤ later ∧ later ≤ currentTime + timeQuantum) :
    WaitsOrDone n (turns + 1) later process := by
  rcases waits with ⟨visits, unfinished, executed, since, bounded⟩ | done
  · refine .inl ⟨visits, unfinished, executed, fun visited => ?_, fun arrived => ?_⟩
    · have := since visited
      omega
    · unfold timeQuantum at *
      by_cases before : process.arrivalTime ≤ currentTime
      · have := bounded before
        omega
      · omega
  · exact .inr done

theorem cast_turns (positive : 0 < n) (visits : Nat) :
    (((n - 1) * visits + (n - 1) : Nat) : Int) = (n - 1) * (visits + 1) := by
  obtain ⟨others, rfl⟩ := Nat.exists_eq_add_of_lt positive
  push_cast
  ring

theorem WaitsOrDone.own (positive : 0 < n)
    (waits : WaitsOrDone n (n - 1) currentTime process)
    (turn : Turn currentTime process later after) : WaitsOrDone n 0 later after := by
  rcases waits with ⟨visits, unfinished, executed, since, bounded⟩ | ⟨done, waited⟩
  · cases turn with
    | skip notReady =>
      have early : ¬ process.arrivalTime ≤ currentTime := fun arrived =>
        notReady ⟨unfinished, arrived⟩
      exact .inl ⟨visits, unfinished, executed, since, fun arrived => absurd arrived early⟩
    | quantum ready more =>
      have arrived := ready.2
      refine .inl ⟨visits + 1, ?_, ?_, fun _ => ?_, fun _ => ?_⟩ <;>
        simp only [Process.execute, timeQuantum, Nat.mul_succ] at * <;> omega
    | rest ready within =>
      have arrived := ready.2
      have spent := bounded arrived
      rw [cast_turns positive, ← Int.mul_assoc] at spent
      have quanta : (process.burstTime + timeQuantum - 1) / timeQuantum = visits + 1 := by
        unfold timeQuantum at *
        omega
      refine .inr ⟨rfl, rfl, ?_, ?_⟩
      · simp only [Process.complete, timeQuantum] at *
        omega
      · simp only [Process.complete, quanta]
        omega
  · cases turn with
    | skip => exact .inr ⟨done, waited⟩
    | quantum ready | rest ready => exact absurd done ready.1.ne'

theorem WaitsOrDone.idle (waits : WaitsOrDone n turns currentTime process)
    (notReady : ¬ Ready currentTime process) : WaitsOrDone n turns (currentTime + 1) process := by
  rcases waits with ⟨visits, unfinished, executed, since, -⟩ | done
  · have early : ¬ process.arrivalTime ≤ currentTime := fun arrived =>
      notReady ⟨unfinished, arrived⟩
    refine .inl ⟨visits, unfinished, executed, fun visited => ?_, fun arrived => ?_⟩
    · have := since visited
      omega
    · unfold timeQuantum
      omega
  · exact .inr done

end

def turnsSince (n index position : Nat) : Nat :=
  if index < position then position - index - 1 else n - 1 - index + position

def AllWait (n position : Nat) (currentTime : Int) (processes : List Process) : Prop :=
  ∀ index process, processes[index]? = some process →
    WaitsOrDone n (turnsSince n index position) currentTime process

section

variable {n position index : Nat} {currentTime later : Int} {processes : List Process}

theorem turnsSince_self (inside : index < n) : turnsSince n index index = n - 1 := by
  unfold turnsSince
  split <;> omega

theorem turnsSince_succ_self (n index : Nat) : turnsSince n index (index + 1) = 0 := by
  unfold turnsSince
  split <;> omega

theorem turnsSince_succ (other : index ≠ position) :
    turnsSince n index (position + 1) = turnsSince n index position + 1 := by
  unfold turnsSince
  split <;> split <;> omega

theorem turnsSince_length (inside : index < n) : turnsSince n index n = turnsSince n index 0 := by
  unfold turnsSince
  split <;> split <;> omega

theorem AllWait.turn {before rest : List Process} {process after : Process}
    (allWait : AllWait n before.length currentTime (before ++ process :: rest))
    (inside : before.length < n) (turn : Turn currentTime process later after) :
    AllWait n (before.length + 1) later (before ++ after :: rest) := by
  intro index other found
  by_cases own : index = before.length
  · subst own
    have isAfter : after = other := by simpa using found
    have waits := allWait before.length process (by simp)
    rw [turnsSince_self inside] at waits
    rw [turnsSince_succ_self, ← isAfter]
    exact waits.own (by omega) turn
  · have written : before ++ after :: rest =
        (before ++ process :: rest).set before.length after := by simp
    rw [written, getElem?_set_ne (Ne.symm own)] at found
    rw [turnsSince_succ own]
    exact (allWait index other found).other turn.le

theorem AllWait.forLoop (before : List Process) {rest after : List Process}
    {completions : List Nat}
    (allWait : AllWait n before.length clock.currentTime (before ++ rest))
    (length : before.length + rest.length = n)
    (looped : RoundRobin.forLoop index clock rest = some (next, after, completions)) :
    AllWait n n next.currentTime (before ++ after) := by
  induction rest generalizing before index clock after completions with
  | nil =>
    cases looped
    subst length
    exact allWait
  | cons process rest ih =>
    obtain ⟨middle, processAfter, isCompleted, restAfter, more, visited, restLooped, rfl,
      rfl⟩ := forLoop_cons.mp looped
    rw [length_cons] at length
    have turned := allWait.turn (by omega) (turn_of_visit visited)
    have position : (before ++ [processAfter]).length = before.length + 1 := by simp
    rw [append_cons, ← position] at turned
    rw [append_cons]
    exact ih (before ++ [processAfter]) turned (by omega) restLooped

theorem AllWait.pass {state next : State} {completions : List Nat}
    (allWait : AllWait state.processes.length 0 state.currentTime state.processes)
    (passed : RoundRobin.pass state = some (next, completions)) :
    AllWait next.processes.length 0 next.currentTime next.processes := by
  obtain ⟨clock, looped, -, cases⟩ := pass_cases passed
  have visits := visits_of_forLoop looped
  have length : next.processes.length = state.processes.length := by
    simpa using congrArg length visits.keys
  rw [length]
  rcases cases with ⟨-, timeEq⟩ | ⟨idle, timeEq, -⟩
  · rw [timeEq]
    intro index process found
    have inside := (List.getElem?_eq_some_iff.mp found).1
    rw [length] at inside
    rw [← turnsSince_length inside]
    exact AllWait.forLoop [] allWait (Nat.zero_add _) looped index process found
  · obtain ⟨rfl, same, noneReady⟩ := visits.idle idle
    rw [timeEq, same]
    intro index process found
    exact (allWait index process found).idle (noneReady process (mem_of_getElem? found))

theorem allWait_start (fresh : ∀ process ∈ processes, Fresh process) : AllWait n 0 0 processes := by
  intro index process found
  obtain ⟨arrival, burst, remaining⟩ := fresh process (mem_of_getElem? found)
  refine .inl ⟨0, by omega, by simp [remaining], nofun, fun _ => ?_⟩
  simp only [timeQuantum]
  omega

end

section

variable {processes scheduled : List Process} {completions : List Nat}

theorem RoundRobinSchedule.boundedWaiting
    (ended : RoundRobinSchedule processes scheduled completions)
    (nonempty : processes ≠ []) (fresh : ∀ process ∈ processes, Fresh process) :
    ∀ process ∈ scheduled, BoundedWaiting processes.length process := by
  obtain ⟨sameKeys, done, -⟩ := ended.done nonempty fresh
  have length : scheduled.length = processes.length := by
    simpa using congrArg length sameKeys
  obtain ⟨passes, last, ⟨iterates, -⟩, rfl, -⟩ := ended
  have allWait := iterates.invariant
      (fun state _ => AllWait state.processes.length 0 state.currentTime state.processes)
      (fun allWait _ passed => allWait.pass passed) (allWait_start fresh)
  intro process member
  obtain ⟨index, found⟩ := mem_iff_getElem?.mp member
  rcases allWait index process found with ⟨visits, waits⟩ | ⟨-, bounded⟩
  · exact absurd (done process member) waits.unfinished.ne'
  · rwa [← length]

/-- Waiting is bounded by a quantum of each other process per own one, if no time overflows. -/
theorem bounded_waiting_iff (fresh : ∀ process ∈ processes, Fresh process) :
    (∃ scheduled completions, RoundRobinSchedule processes scheduled completions ∧
        scheduled.map Process.key = processes.map Process.key ∧
          ∀ process ∈ scheduled, BoundedWaiting processes.length process) ↔
      finish 0 (processes.map Process.job) ≤ intMax := by
  by_cases nonempty : processes = []
  · subst nonempty
    refine ⟨fun _ => by decide, fun _ => ⟨[], [], ⟨[], start [], ?_, rfl, rfl⟩, rfl, nofun⟩⟩
    exact ⟨iterates_nil, rfl⟩
  constructor
  · rintro ⟨scheduled, completions, ended, -⟩
    exact (ended.done nonempty fresh).2.2.2.2
  · intro fits
    obtain ⟨scheduled, completions, ended⟩ := exists_schedule nonempty fresh fits
    exact ⟨scheduled, completions, ended, (ended.done nonempty fresh).1,
      ended.boundedWaiting nonempty fresh⟩

end

theorem bounded_waiting_of_two_processes : ∃ scheduled completions,
      RoundRobinSchedule [⟨1, 0, 5, 5, 0, 0, 0⟩, ⟨2, 1, 3, 3, 0, 0, 0⟩] scheduled completions ∧
        scheduled.map Process.key = [(1, 0, 5), (2, 1, 3)] ∧
          ∀ process ∈ scheduled, BoundedWaiting 2 process := by
  refine (bounded_waiting_iff ?_).mpr (by decide)
  rw [forall_mem_cons, forall_mem_singleton]
  exact ⟨⟨by decide, by decide, rfl⟩, ⟨by decide, by decide, rfl⟩⟩

theorem late_arrival_overflows_before_completion : ¬ ∃ scheduled completions,
      RoundRobinSchedule [⟨1, 2147483646, 3, 3, 0, 0, 0⟩] scheduled completions := by
  rintro ⟨scheduled, completions, ended⟩
  have fits := (ended.done (by simp) (by
    rw [forall_mem_singleton]
    exact ⟨by decide, by decide, rfl⟩)).2.2.2.2
  exact absurd fits (by decide)

end BitsAndBytes.RoundRobin
