import BitsAndBytes.SignedInt
import BitsAndBytes.WorkConserving
import Mathlib.Tactic.IntervalCases

/-! # The scheduler of `firt_come_first_serve.c` -/

namespace BitsAndBytes.FirstComeFirstServe

open SignedInt WorkConserving List Option

structure Process where
  pid : Int
  arrivalTime : Int
  burstTime : Int
  completionTime : Int
  turnaroundTime : Int
  waitingTime : Int

def serve (currentTime : Int) : List Process → Option (List Process)
  | [] => some []
  | process :: rest => do
      let currentTime :=
        if currentTime < process.arrivalTime then process.arrivalTime else currentTime
      let completionTime ← checked (currentTime + process.burstTime)
      let turnaroundTime ← checked (completionTime - process.arrivalTime)
      let waitingTime ← checked (turnaroundTime - process.burstTime)
      let served ← serve completionTime rest
      some ({ process with completionTime, turnaroundTime, waitingTime } :: served)

def fcfsSchedule (processes : List Process) : Option (List Process) :=
  serve 0 processes

def Process.key (process : Process) : Int × Int × Int :=
  (process.pid, process.arrivalTime, process.burstTime)

def Process.job (process : Process) : Job :=
  ⟨process.arrivalTime, process.burstTime⟩

def Process.complete (process : Process) (completionTime : Int) : Process :=
  { process with
    completionTime
    turnaroundTime := completionTime - process.arrivalTime
    waitingTime := completionTime - process.arrivalTime - process.burstTime }

variable {currentTime : Int} {processes : List Process}

theorem serve_cons {process : Process} (rest : List Process) (arrives : 0 ≤ process.arrivalTime)
    (burst : 0 ≤ process.burstTime)
    (fits : max currentTime process.arrivalTime + process.burstTime ≤ intMax) :
    serve currentTime (process :: rest) =
      (serve (max currentTime process.arrivalTime + process.burstTime) rest).map
        (process.complete (max currentTime process.arrivalTime + process.burstTime) :: ·) := by
  have startEq : (if currentTime < process.arrivalTime then process.arrivalTime
      else currentTime) = max currentTime process.arrivalTime := by
    rw [max_def]
    split <;> split <;> omega
  have intMinLe : intMin ≤ 0 := by decide
  simp only [serve, startEq, bind_eq_bind]
  rw [checked_bind (by omega) fits, checked_bind (by omega) (by omega),
    checked_bind (by omega) (by omega), map_eq_bind]
  rfl

theorem exists_serve (arrivals : ∀ process ∈ processes, 0 ≤ process.arrivalTime)
    (bursts : ∀ process ∈ processes, 1 ≤ process.burstTime)
    (ordered : processes.Pairwise fun process other => process.arrivalTime ≤ other.arrivalTime)
    (fits : finish currentTime (processes.map Process.job) ≤ intMax) :
    ∃ served, serve currentTime processes = some served ∧ (∀ process ∈ served,
        process.completionTime ≤ finish currentTime (processes.map Process.job)) ∧
      (processes ≠ [] → ∃ process ∈ served,
          process.completionTime = finish currentTime (processes.map Process.job)) := by
  induction processes generalizing currentTime with
  | nil => exact ⟨[], rfl, nofun, fun nonempty => absurd rfl nonempty⟩
  | cons process rest ih =>
    rw [forall_mem_cons] at arrivals bursts
    rw [pairwise_cons] at ordered
    have restNonneg : ∀ job ∈ rest.map Process.job, 0 ≤ job.work :=
      forall_mem_map.mpr fun other member =>
        Int.le_trans (by decide) (bursts.2 other member)
    have finishEq : finish currentTime ((process :: rest).map Process.job) =
        finish (max currentTime process.arrivalTime + process.burstTime) (rest.map Process.job) :=
      finish_cons_of_first (Int.lt_of_lt_of_le (by decide) bursts.1)
        (forall_mem_map.mpr ordered.1) restNonneg
    rw [finishEq] at fits ⊢
    have completedLe : max currentTime process.arrivalTime + process.burstTime ≤
        finish (max currentTime process.arrivalTime + process.burstTime) (rest.map Process.job) :=
      now_le_finish restNonneg
    obtain ⟨served, servedEq, each, last⟩ := ih arrivals.2 bursts.2 ordered.2 fits
    have burstNonneg : 0 ≤ process.burstTime := Int.le_trans (by decide) bursts.1
    refine ⟨_, by rw [serve_cons rest arrivals.1 burstNonneg (completedLe.trans fits),
      servedEq, map_some], forall_mem_cons.mpr ⟨completedLe, each⟩, fun _ => ?_⟩
    cases rest with
    | nil => exact ⟨_, mem_cons_self, (finish_of_done (by simp) (by simp)).symm⟩
    | cons other rest =>
      obtain ⟨slowest, member, isLast⟩ := last (cons_ne_nil other rest)
      exact ⟨slowest, mem_cons_of_mem _ member, isLast⟩

theorem serve_eq (arrivals : ∀ process ∈ processes, 0 ≤ process.arrivalTime)
    (bursts : ∀ process ∈ processes, 0 ≤ process.burstTime)
    (fits : ∀ time ∈ completions currentTime (processes.map Process.job), time ≤ intMax) :
    serve currentTime processes = some (processes.zipWith Process.complete
        (completions currentTime (processes.map Process.job))) := by
  induction processes generalizing currentTime with
  | nil => rfl
  | cons process rest ih =>
    rw [forall_mem_cons] at arrivals bursts
    rw [map_cons, completions, forall_mem_cons] at fits
    have served := ih arrivals.2 bursts.2 fits.2
    rw [serve_cons rest arrivals.1 bursts.1 fits.1]
    simp only [Process.job] at served ⊢
    rw [served]
    rfl

theorem map_key_complete {times : List Int} (sameLength : times.length = processes.length) :
    (processes.zipWith Process.complete times).map Process.key = processes.map Process.key := by
  induction processes generalizing times with
  | nil => rfl
  | cons process rest ih =>
    cases times with
    | nil => cases sameLength
    | cons time times =>
      rw [zipWith_cons_cons, map_cons, map_cons, ih (Nat.succ.inj sameLength)]
      rfl

/-- A process completes at the latest of the arrivals up to its own plus the bursts from there. -/
theorem completion_is_latest_arrival_with_bursts (processes : List Process)
    (arrivals : ∀ process ∈ processes, 0 ≤ process.arrivalTime)
    (bursts : ∀ process ∈ processes, 0 ≤ process.burstTime)
    (fits : ∀ i < processes.length, ∀ time ∈ arrivalsWithWork (processes.map Process.job) i,
      time ≤ intMax) :
    ∃ served, fcfsSchedule processes = some served ∧
      served.map Process.key = processes.map Process.key ∧
      ∀ i process, served[i]? = some process →
        IsGreatest (arrivalsWithWork (processes.map Process.job) i) process.completionTime ∧
          0 ≤ process.waitingTime := by
  have early : ∀ job ∈ processes.map Process.job, 0 ≤ job.arrival := forall_mem_map.mpr arrivals
  have completionsFit : ∀ time ∈ completions 0 (processes.map Process.job), time ≤ intMax := by
    intro time member
    obtain ⟨i, inside, isDone⟩ := mem_iff_getElem.mp member
    have done := getElem?_eq_some_iff.mpr ⟨inside, isDone⟩
    rw [length_completions, length_map] at inside
    exact fits i inside time (isGreatest_completions_of_le early done).1
  refine ⟨_, serve_eq arrivals bursts completionsFit, map_key_complete (by simp), ?_⟩
  intro i process served
  obtain ⟨before, time, isBefore, done, rfl⟩ := getElem?_zipWith_eq_some.mp served
  have greatest := isGreatest_completions_of_le early done
  refine ⟨greatest, ?_⟩
  have found : (processes.map Process.job)[i]? = some before.job := by
    rw [getElem?_map, isBefore, map_some]
  have own : before.arrivalTime + before.burstTime ≤ time := greatest.2 (arrival_add_work_mem found)
  simp only [Process.complete]
  omega

theorem completions_of_late_first_process :
    ∃ served, fcfsSchedule [⟨1, 5, 2, 0, 0, 0⟩, ⟨2, 0, 4, 0, 0, 0⟩, ⟨3, 1, 0, 0, 0, 0⟩] =
        some served ∧
      served.map Process.key = [(1, 5, 2), (2, 0, 4), (3, 1, 0)] ∧
      ∀ i process, served[i]? = some process →
        IsGreatest (arrivalsWithWork [⟨5, 2⟩, ⟨0, 4⟩, ⟨1, 0⟩] i) process.completionTime ∧
          0 ≤ process.waitingTime := by
  refine completion_is_latest_arrival_with_bursts
    [⟨1, 5, 2, 0, 0, 0⟩, ⟨2, 0, 4, 0, 0, 0⟩, ⟨3, 1, 0, 0, 0, 0⟩] (by simp) (by simp) ?_
  rintro i inside _ ⟨first, firstLe, job, found, rfl⟩
  simp only [length_cons, length_nil] at inside
  interval_cases i <;> interval_cases first <;> cases found <;> decide

end BitsAndBytes.FirstComeFirstServe
