import BitsAndBytes.SignedInt
import BitsAndBytes.WhileLoop
import Mathlib.Data.Int.Order.Basic

/-! # The scheduler of `priority_scheduling.c` -/

namespace BitsAndBytes.PriorityScheduling

open SignedInt WhileLoop Function Option List

def ageThreshold : Int := 5

structure PriorityProcess where
  priority : Int
  age : Int
  remainingTime : Int
deriving DecidableEq, Repr

section

variable (store : Int → Option Int)

/-- One turn of the loop of `age_processes`; `store` says what an `int` holds of a result. -/
def ageProcess (process : PriorityProcess) : Option PriorityProcess :=
  if process.remainingTime > 0 then do
    let age ← store (process.age + 1)
    if age ≥ ageThreshold then
      let priority ← store (process.priority + 1)
      some { process with priority, age := 0 }
    else
      some { process with age }
  else
    some process

/-- `age_processes`, for the first processes of the array. -/
def ageProcesses : Nat → (Nat → PriorityProcess) → Option (Nat → PriorityProcess)
  | 0, processes => some processes
  | i + 1, processes => do
      let processes ← ageProcesses i processes
      let process ← ageProcess store (processes i)
      some (update processes i process)

end

def consider (processes : Nat → PriorityProcess) (best : Int × Int) (i : Nat) : Int × Int :=
  if (processes i).remainingTime > 0 then
    if best.2 = -1 ∨ (processes i).priority > best.1 then
      ((processes i).priority, i)
    else
      best
  else
    best

def highest (processes : Nat → PriorityProcess) : Nat → Int × Int
  | 0 => (-1, -1)
  | i + 1 => consider processes (highest processes i) i

def getHighestPriorityProcess (n : Nat) (processes : Nat → PriorityProcess) : Int :=
  (highest processes n).2

structure State where
  processes : Nat → PriorityProcess
  currentTime : Int
  completed : Int

def start (processes : Nat → PriorityProcess) : State :=
  ⟨processes, 0, 0⟩

/-- The condition of the `while` loop. -/
def unfinished (n : Nat) (state : State) : Bool :=
  state.completed < n

def scheduleStep (store : Int → Option Int) (n : Nat) (state : State) : Option (State × Int) := do
  let processes ← ageProcesses store n state.processes
  let currentProcess := getHighestPriorityProcess n processes
  if currentProcess = -1 then
    let currentTime ← store (state.currentTime + 1)
    some (⟨processes, currentTime, state.completed⟩, currentProcess)
  else
    let process := processes currentProcess.toNat
    let remainingTime ← store (process.remainingTime - 1)
    let currentTime ← store (state.currentTime + 1)
    let processes :=
      update processes currentProcess.toNat { process with remainingTime }
    if remainingTime = 0 then
      let completed ← store (state.completed + 1)
      some (⟨processes, currentTime, completed⟩, currentProcess)
    else
      some (⟨processes, currentTime, state.completed⟩, currentProcess)

/-- What `age_processes` does to a process. -/
inductive Ages (process : PriorityProcess) : PriorityProcess → Prop
  | finished (done : ¬ 0 < process.remainingTime) : Ages process process
  | grows (notDone : 0 < process.remainingTime) (young : process.age + 1 < ageThreshold) :
      Ages process { process with age := process.age + 1 }
  | boosted (notDone : 0 < process.remainingTime) (old : ageThreshold ≤ process.age + 1) :
      Ages process { process with priority := process.priority + 1, age := 0 }

/-- The first of the unfinished processes with the highest priority. -/
structure IsSelected (n : Nat) (processes : Nat → PriorityProcess) (k : Nat) : Prop where
  lt : k < n
  notDone : 0 < (processes k).remainingTime
  le : ∀ j < n, 0 < (processes j).remainingTime → (processes j).priority ≤ (processes k).priority
  first : ∀ j < k, 0 < (processes j).remainingTime → (processes j).priority < (processes k).priority

def PriorityProcess.execute (process : PriorityProcess) : PriorityProcess :=
  { process with remainingTime := process.remainingTime - 1 }

/-- A step executes the selected process, or nothing if all are done. -/
inductive Executes (n : Nat) (aged : Nat → PriorityProcess) (state : State) :
    State → Int → Prop
  | idle (allDone : ∀ i < n, ¬ 0 < (aged i).remainingTime) :
      Executes n aged state ⟨aged, state.currentTime + 1, state.completed⟩ (-1)
  | continues {k : Nat} (selected : IsSelected n aged k) (more : (aged k).remainingTime ≠ 1) :
      Executes n aged state
        ⟨update aged k (aged k).execute, state.currentTime + 1, state.completed⟩ k
  | completes {k : Nat} (selected : IsSelected n aged k) (last : (aged k).remainingTime = 1) :
      Executes n aged state
        ⟨update aged k (aged k).execute, state.currentTime + 1, state.completed + 1⟩ k

section

variable {n i : Nat} {process after : PriorityProcess} {processes aged : Nat → PriorityProcess}

theorem ages_of_ageProcess (done : ageProcess checked process = some after) :
    Ages process after := by
  rw [ageProcess] at done
  split at done
  · rename_i notDone
    simp only [bind_eq_bind, bind_eq_some_iff, checked_eq_some_iff] at done
    obtain ⟨_, ⟨rfl, -⟩, done⟩ := done
    split at done
    · rename_i old
      simp only [bind_eq_some_iff, checked_eq_some_iff] at done
      obtain ⟨_, ⟨rfl, -⟩, done⟩ := done
      cases done
      exact .boosted notDone old
    · rename_i young
      cases done
      exact .grows notDone (Int.not_le.mp young)
  · rename_i isDone
    cases done
    exact .finished isDone

theorem Ages.remainingTime (ages : Ages process after) :
    after.remainingTime = process.remainingTime := by
  cases ages <;> rfl

theorem ages_of_ageProcesses (done : ageProcesses checked n processes = some aged) :
    (∀ i < n, Ages (processes i) (aged i)) ∧ ∀ i, n ≤ i → aged i = processes i := by
  induction n generalizing aged with
  | zero =>
    cases done
    exact ⟨nofun, fun _ _ => rfl⟩
  | succ n ih =>
    simp only [ageProcesses, bind_eq_bind, bind_eq_some_iff] at done
    obtain ⟨before, beforeAged, process, isAged, same⟩ := done
    cases same
    obtain ⟨earlier, later⟩ := ih beforeAged
    rw [later n le_rfl] at isAged
    constructor
    · intro i inside
      by_cases isLast : i = n
      · subst isLast
        rw [update_self]
        exact ages_of_ageProcess isAged
      · rw [update_of_ne isLast]
        exact earlier i (by omega)
    · intro i outside
      rw [update_of_ne (by omega)]
      exact later i (by omega)

theorem highest_cases (n : Nat) (processes : Nat → PriorityProcess) :
    ((highest processes n).2 = -1 ∧ ∀ i < n, ¬ 0 < (processes i).remainingTime) ∨
      ∃ k, highest processes n = ((processes k).priority, (k : Int)) ∧
        IsSelected n processes k := by
  induction n with
  | zero => exact .inl ⟨rfl, nofun⟩
  | succ n ih =>
    rw [highest, consider]
    split
    · rename_i notDone
      rcases ih with ⟨nothing, allDone⟩ | ⟨k, isHighest, lt, kNotDone, le, first⟩
      · rw [if_pos (.inl nothing)]
        refine .inr ⟨n, rfl, Nat.lt_succ_self n, notDone,
          Nat.forall_lt_succ_right.mpr ⟨?_, fun _ => le_rfl⟩, ?_⟩
        · exact fun j inside jNotDone => absurd jNotDone (allDone j inside)
        · exact fun j inside jNotDone => absurd jNotDone (allDone j inside)
      · rw [isHighest]
        have isProcess : ¬ (k : Int) = -1 := by omega
        simp only [isProcess, false_or]
        split
        · rename_i higher
          refine .inr ⟨n, rfl, Nat.lt_succ_self n, notDone,
            Nat.forall_lt_succ_right.mpr ⟨?_, fun _ => le_rfl⟩, ?_⟩
          · exact fun j inside jNotDone => (le j inside jNotDone).trans higher.le
          · exact fun j inside jNotDone => lt_of_le_of_lt (le j inside jNotDone) higher
        · rename_i notHigher
          exact .inr ⟨k, rfl, Nat.lt_succ_of_lt lt, kNotDone,
            Nat.forall_lt_succ_right.mpr ⟨le, fun _ => not_lt.mp notHigher⟩, first⟩
    · rename_i isDone
      rcases ih with ⟨nothing, allDone⟩ | ⟨k, isHighest, lt, kNotDone, le, first⟩
      · exact .inl ⟨nothing, Nat.forall_lt_succ_right.mpr ⟨allDone, isDone⟩⟩
      · exact .inr ⟨k, isHighest, Nat.lt_succ_of_lt lt, kNotDone,
          Nat.forall_lt_succ_right.mpr ⟨le, fun notDone => absurd notDone isDone⟩, first⟩

theorem scheduleStep_cases {state next : State} {selected : Int}
    (stepEq : scheduleStep checked n state = some (next, selected)) :
    ∃ aged, (∀ i < n, Ages (state.processes i) (aged i)) ∧ Executes n aged state next selected := by
  simp only [scheduleStep, getHighestPriorityProcess, bind_eq_bind, bind_eq_some_iff] at stepEq
  obtain ⟨aged, agedEq, stepEq⟩ := stepEq
  refine ⟨aged, (ages_of_ageProcesses agedEq).1, ?_⟩
  rcases highest_cases n aged with ⟨nothing, allDone⟩ | ⟨k, isHighest, isSelected⟩
  · simp only [nothing, if_true, bind_eq_some_iff, checked_eq_some_iff] at stepEq
    obtain ⟨_, ⟨rfl, -⟩, same⟩ := stepEq
    cases same
    exact .idle allDone
  · have isProcess : ¬ (k : Int) = -1 := by omega
    simp only [isHighest, isProcess, if_false, Int.toNat_natCast, bind_eq_some_iff,
      checked_eq_some_iff] at stepEq
    obtain ⟨_, ⟨rfl, -⟩, _, ⟨rfl, -⟩, stepEq⟩ := stepEq
    split at stepEq
    · rename_i done
      simp only [bind_eq_some_iff, checked_eq_some_iff] at stepEq
      obtain ⟨_, ⟨rfl, -⟩, same⟩ := stepEq
      cases same
      exact .completes isSelected (by omega)
    · rename_i notDone
      cases stepEq
      exact .continues isSelected (by omega)

end

/-- The process has aged `count` times, from age 0 on. -/
structure Boosted (initial : PriorityProcess) (count : Nat) (process : PriorityProcess) :
    Prop where
  age : process.age = (count % 5 : Nat)
  priority : process.priority = initial.priority + (count / 5 : Nat)

/-- All unfinished processes have been boosted in the same steps. -/
def Lockstep (n : Nat) (initial : Nat → PriorityProcess) (count : Nat) (state : State) : Prop :=
  ∀ i < n, 0 < (state.processes i).remainingTime → Boosted (initial i) count (state.processes i)

section

variable {n count : Nat} {initial : Nat → PriorityProcess} {state next : State} {selected : Int}

theorem Boosted.ages {initial process after : PriorityProcess}
    (boosted : Boosted initial count process) (notDone : 0 < process.remainingTime)
    (ages : Ages process after) : Boosted initial (count + 1) after := by
  obtain ⟨age, priority⟩ := boosted
  cases ages with
  | finished done => exact absurd notDone done
  | grows _ young =>
    simp only [ageThreshold] at young
    constructor <;> simp only <;> omega
  | boosted _ old =>
    simp only [ageThreshold] at old
    constructor <;> simp only <;> omega

theorem Lockstep.ages (lockstep : Lockstep n initial count state)
    (stepEq : scheduleStep checked n state = some (next, selected)) {i : Nat} (inside : i < n)
    (notDone : 0 < (state.processes i).remainingTime) :
    Boosted (initial i) (count + 1) (next.processes i) := by
  obtain ⟨aged, ages, executes⟩ := scheduleStep_cases stepEq
  have boosted := (lockstep i inside notDone).ages notDone (ages i inside)
  have executed : ∀ k, Boosted (initial i) (count + 1) (update aged k (aged k).execute i) := by
    intro k
    by_cases isExecuted : i = k
    · subst isExecuted
      rw [update_self]
      exact ⟨boosted.age, boosted.priority⟩
    · rwa [update_of_ne isExecuted]
  cases executes with
  | idle => exact boosted
  | continues | completes => exact executed _

theorem notDone_before (stepEq : scheduleStep checked n state = some (next, selected)) {i : Nat}
    (inside : i < n) (notDone : 0 < (next.processes i).remainingTime ∨ selected = i) :
    0 < (state.processes i).remainingTime := by
  obtain ⟨aged, ages, executes⟩ := scheduleStep_cases stepEq
  rw [← (ages i inside).remainingTime]
  have executed : ∀ {k}, IsSelected n aged k →
      0 < (update aged k (aged k).execute i).remainingTime ∨ (k : Int) = i →
        0 < (aged i).remainingTime := by
    intro k isSelected notDone
    by_cases isExecuted : i = k
    · subst isExecuted
      exact isSelected.notDone
    · rw [update_of_ne isExecuted] at notDone
      exact notDone.resolve_right (by omega)
  cases executes with
  | idle => exact notDone.resolve_right (by omega)
  | continues isSelected | completes isSelected => exact executed isSelected notDone

theorem lockstep_of_iterates {processes : Nat → PriorityProcess}
    (ages : ∀ i < n, (processes i).age = 0) {outs : List Int} {last : State}
    (iterates : Iterates (unfinished n) (scheduleStep checked n) (start processes) outs last) :
    Lockstep n processes outs.length last := by
  refine iterates.invariant (fun state past => Lockstep n processes past.length state)
    (fun {state past next out} lockstep _ stepEq => ?_) fun i inside _ => ?_
  · rw [length_append, length_singleton]
    exact fun i inside notDone =>
      lockstep.ages stepEq inside (notDone_before stepEq inside (.inl notDone))
  · exact ⟨ages i inside, by simp [start]⟩

end

/-- While one process is selected, aging does not change how it compares with another. -/
theorem priority_order_kept {n : Nat} {processes : Nat → PriorityProcess}
    (fresh : ∀ i < n, (processes i).age = 0 ∧ 0 < (processes i).remainingTime) {a b : Nat}
    (aLt : a < n) (bLt : b < n) {past : List Int} {steps : Nat} (someSteps : 0 < steps)
    {last : State}
    (iterates : Iterates (unfinished n) (scheduleStep checked n) (start processes)
      (past ++ replicate steps (a : Int)) last)
    (waiting : 0 < (last.processes b).remainingTime) :
    (last.processes a).priority < (last.processes b).priority ↔
      (processes a).priority < (processes b).priority := by
  obtain ⟨fewer, rfl⟩ := Nat.exists_eq_add_of_lt someSteps
  rw [Nat.zero_add, replicate_succ', ← append_assoc, iterates_append] at iterates
  obtain ⟨state, before, lastStep⟩ := iterates
  have lockstep := lockstep_of_iterates (fun i inside => (fresh i inside).1) before
  obtain ⟨next, -, stepEq, rest⟩ := iterates_cons.mp lastStep
  obtain rfl := rest.eq_of_nil
  have first := lockstep.ages stepEq aLt (notDone_before stepEq aLt (.inr rfl))
  have second := lockstep.ages stepEq bLt (notDone_before stepEq bLt (.inl waiting))
  rw [first.priority, second.priority]
  omega

def twoProcesses (i : Nat) : PriorityProcess :=
  if i = 0 then ⟨2, 0, 11⟩ else ⟨1, 0, 1⟩

theorem priority_order_kept_in_ten_steps :
    ∃ last, Iterates (unfinished 2) (scheduleStep checked 2) (start twoProcesses)
        ([] ++ replicate 10 0) last ∧
      ((last.processes 0).priority < (last.processes 1).priority ↔
        (twoProcesses 0).priority < (twoProcesses 1).priority) := by
  obtain ⟨last, iterates, waiting⟩ : ∃ last, Iterates (unfinished 2) (scheduleStep checked 2)
      (start twoProcesses) ([] ++ replicate 10 0) last ∧ 0 < (last.processes 1).remainingTime := by
    refine ⟨_, rfl, ?_⟩
    decide
  exact ⟨last, iterates, priority_order_kept (by decide) (by decide) (by decide) (by decide)
    iterates waiting⟩

theorem waiting_process_does_not_catch_up :
    (∀ i < 2, (twoProcesses i).age = 0 ∧ 0 < (twoProcesses i).remainingTime) ∧
      (twoProcesses 1).priority < (twoProcesses 0).priority ∧
      ∃ last, Iterates (unfinished 2) (scheduleStep checked 2) (start twoProcesses)
          (replicate
            (5 * ((twoProcesses 0).priority - (twoProcesses 1).priority + 1)).toNat 0) last ∧
        0 < (last.processes 1).remainingTime ∧
          ¬ (last.processes 0).priority < (last.processes 1).priority := by
  refine ⟨by decide, by decide, _, rfl, ?_, ?_⟩
  · decide
  · decide

end BitsAndBytes.PriorityScheduling
