import BitsAndBytes.FirstComeFirstServe
import BitsAndBytes.WhileLoop

/-! # The scheduler of `round_robin.c` -/

namespace BitsAndBytes.RoundRobin

open SignedInt WhileLoop WorkConserving List

def timeQuantum : Int := 2

structure Process where
  pid : Int
  arrivalTime : Int
  burstTime : Int
  remainingTime : Int
  completionTime : Int
  turnaroundTime : Int
  waitingTime : Int

structure Clock where
  currentTime : Int
  completed : Int
  anyExecuted : Bool

def executionTime (process : Process) : Int :=
  if process.remainingTime > timeQuantum then timeQuantum else process.remainingTime

def visit (clock : Clock) (process : Process) : Option (Clock × Process × Bool) :=
  if process.remainingTime > 0 ∧ process.arrivalTime ≤ clock.currentTime then do
    let remainingTime ← checked (process.remainingTime - executionTime process)
    let currentTime ← checked (clock.currentTime + executionTime process)
    if remainingTime = 0 then do
      let completed ← checked (clock.completed + 1)
      let turnaroundTime ← checked (currentTime - process.arrivalTime)
      let waitingTime ← checked (turnaroundTime - process.burstTime)
      some (⟨currentTime, completed, true⟩, { process with
          remainingTime, completionTime := currentTime, turnaroundTime, waitingTime }, true)
    else
      some (⟨currentTime, clock.completed, true⟩, { process with remainingTime }, false)
  else
    some (clock, process, false)

def forLoop (index : Nat) (clock : Clock) : List Process → Option (Clock × List Process × List Nat)
  | [] => some (clock, [], [])
  | process :: rest => do
      let (clock, process, isCompleted) ← visit clock process
      let (clock, rest, completions) ← forLoop (index + 1) clock rest
      some (clock, process :: rest, if isCompleted then index :: completions else completions)

structure State where
  processes : List Process
  currentTime : Int
  completed : Int

def unfinished (state : State) : Bool :=
  state.completed < state.processes.length

def pass (state : State) : Option (State × List Nat) := do
  let (clock, processes, completions) ←
    forLoop 0 ⟨state.currentTime, state.completed, false⟩ state.processes
  if clock.anyExecuted then
    some (⟨processes, clock.currentTime, clock.completed⟩, completions)
  else do
    let currentTime ← checked (clock.currentTime + 1)
    some (⟨processes, currentTime, clock.completed⟩, completions)

def start (processes : List Process) : State :=
  ⟨processes, 0, 0⟩

/-- `round_robin_schedule` returns with these processes and completions. -/
def RoundRobinSchedule (processes scheduled : List Process) (completions : List Nat) : Prop :=
  ∃ passes last, Ends unfinished pass (start processes) passes last ∧
    last.processes = scheduled ∧ passes.flatten = completions

def Process.job (process : Process) : Job :=
  ⟨process.arrivalTime, process.remainingTime⟩

def Process.execute (process : Process) (time : Int) : Process :=
  { process with remainingTime := process.remainingTime - time }

def Process.complete (process : Process) (completionTime : Int) : Process :=
  { process with
    remainingTime := 0
    completionTime
    turnaroundTime := completionTime - process.arrivalTime
    waitingTime := completionTime - process.arrivalTime - process.burstTime }

def Ready (currentTime : Int) (process : Process) : Prop :=
  process.remainingTime > 0 ∧ process.arrivalTime ≤ currentTime

/-- A visit skips a process, executes it, or completes it. -/
inductive Visit (clock : Clock) (process : Process) : Clock → Process → Bool → Prop
  | skip (notReady : ¬ Ready clock.currentTime process) : Visit clock process clock process false
  | execute {time : Int} (ready : Ready clock.currentTime process) (positive : 0 < time)
      (within : time < process.remainingTime) (fits : clock.currentTime + time ≤ intMax) :
      Visit clock process ⟨clock.currentTime + time, clock.completed, true⟩
        (process.execute time) false
  | complete (ready : Ready clock.currentTime process)
      (fits : clock.currentTime + process.remainingTime ≤ intMax) :
      Visit clock process
        ⟨clock.currentTime + process.remainingTime, clock.completed + 1, true⟩
        (process.complete (clock.currentTime + process.remainingTime)) true

section

variable {clock next : Clock} {process after : Process} {isCompleted : Bool}

theorem executionTime_cases (positive : process.remainingTime > 0) :
    0 < executionTime process ∧ (executionTime process < process.remainingTime ∨
      executionTime process = process.remainingTime) := by
  rw [executionTime, timeQuantum]
  split <;> omega

theorem visit_cases (visited : visit clock process = some (next, after, isCompleted)) :
    Visit clock process next after isCompleted := by
  rw [visit] at visited
  split at visited
  · rename_i ready
    obtain ⟨positive, less | all⟩ := executionTime_cases ready.1
    · simp only [Option.bind_eq_bind, Option.bind_eq_some_iff, checked_eq_some_iff] at visited
      obtain ⟨_, ⟨rfl, -⟩, now, ⟨rfl, -, fits⟩, visited⟩ := visited
      rw [if_neg (by omega)] at visited
      cases visited
      exact .execute ready positive less fits
    · rw [all] at visited
      simp only [Option.bind_eq_bind, Option.bind_eq_some_iff, checked_eq_some_iff] at visited
      obtain ⟨_, ⟨rfl, -⟩, now, ⟨rfl, -, fits⟩, visited⟩ := visited
      rw [if_pos (Int.sub_self _)] at visited
      simp only [Option.bind_eq_some_iff, checked_eq_some_iff] at visited
      obtain ⟨_, ⟨rfl, -⟩, _, ⟨rfl, -⟩, _, ⟨rfl, -⟩, visited⟩ := visited
      rw [Int.sub_self] at visited
      cases visited
      exact .complete ready fits
  · rename_i notReady
    cases visited
    exact .skip notReady

theorem exists_visit (fits : clock.currentTime + process.remainingTime ≤ intMax)
    (arrives : 0 ≤ process.arrivalTime) (burst : 0 ≤ process.burstTime)
    (burstLe : process.burstTime ≤ intMax) (completed : 0 ≤ clock.completed)
    (completedLe : clock.completed ≤ clock.currentTime) :
    ∃ next after isCompleted, visit clock process = some (next, after, isCompleted) := by
  have intMinLe : intMin = -intMax - 1 := by decide
  rw [visit]
  split
  · rename_i ready
    obtain ⟨positive, less | all⟩ := executionTime_cases ready.1
    · simp only [Option.bind_eq_bind]
      rw [checked_bind (by omega) (by omega), checked_bind (by omega) (by omega), if_neg (by omega)]
      exact ⟨_, _, _, rfl⟩
    · have := ready.2
      simp only [all, Option.bind_eq_bind]
      rw [checked_bind (by omega) (by omega), checked_bind (by omega) (by omega),
        if_pos (Int.sub_self _), checked_bind (by omega) (by omega),
        checked_bind (by omega) (by omega), checked_bind (by omega) (by omega)]
      exact ⟨_, _, _, rfl⟩
  · exact ⟨_, _, _, rfl⟩

end

inductive Visits : Nat → Clock → List Process → Clock → List Process → List Nat → Prop
  | nil {index clock} : Visits index clock [] clock [] []
  | cons {index clock middle next process after rest restAfter isCompleted completions}
      (visit : Visit clock process middle after isCompleted)
      (visits : Visits (index + 1) middle rest next restAfter completions) :
      Visits index clock (process :: rest) next (after :: restAfter)
        (if isCompleted then index :: completions else completions)

def finishedFrom (index : Nat) : List Process → List Nat
  | [] => []
  | process :: rest =>
    if process.remainingTime = 0 then index :: finishedFrom (index + 1) rest
    else finishedFrom (index + 1) rest

def Process.key (process : Process) : Int × Int × Int :=
  (process.pid, process.arrivalTime, process.burstTime)

section

variable {index : Nat} {clock next : Clock} {processes after : List Process}
  {completions : List Nat}

theorem forLoop_cons {process : Process} {rest : List Process} :
    forLoop index clock (process :: rest) = some (next, after, completions) ↔
      ∃ middle processAfter isCompleted restAfter more,
        visit clock process = some (middle, processAfter, isCompleted) ∧
          forLoop (index + 1) middle rest = some (next, restAfter, more) ∧
          after = processAfter :: restAfter ∧
          completions = if isCompleted then index :: more else more := by
  simp only [forLoop, Option.bind_eq_bind, Option.bind_eq_some_iff]
  constructor
  · rintro ⟨⟨middle, processAfter, isCompleted⟩, visited, ⟨last, restAfter, more⟩, looped, same⟩
    cases same
    exact ⟨middle, processAfter, isCompleted, restAfter, more, visited, looped, rfl, rfl⟩
  · rintro ⟨middle, processAfter, isCompleted, restAfter, more, visited, looped, rfl, rfl⟩
    exact ⟨_, visited, _, looped, rfl⟩

theorem visits_of_forLoop (looped : forLoop index clock processes =
    some (next, after, completions)) : Visits index clock processes next after completions := by
  induction processes generalizing index clock after completions with
  | nil =>
    cases looped
    exact .nil
  | cons process rest ih =>
    obtain ⟨middle, processAfter, isCompleted, restAfter, more, visited, restLooped, rfl,
      rfl⟩ := forLoop_cons.mp looped
    exact .cons (visit_cases visited) (ih restLooped)

theorem pass_cases {state last : State} (passed : pass state = some (last, completions)) :
    ∃ clock, forLoop 0 ⟨state.currentTime, state.completed, false⟩ state.processes =
        some (clock, last.processes, completions) ∧
      last.completed = clock.completed ∧
      (clock.anyExecuted ∧ last.currentTime = clock.currentTime ∨
        clock.anyExecuted = false ∧ last.currentTime = clock.currentTime + 1 ∧
          last.currentTime ≤ intMax) := by
  simp only [pass, Option.bind_eq_bind, Option.bind_eq_some_iff] at passed
  obtain ⟨⟨clock, after, done⟩, looped, passed⟩ := passed
  cases executed : clock.anyExecuted with
  | true =>
    simp only [executed, if_true] at passed
    cases passed
    exact ⟨clock, looped, rfl, .inl ⟨executed, rfl⟩⟩
  | false =>
    simp only [executed, Bool.false_eq_true, if_false, Option.bind_eq_some_iff,
      checked_eq_some_iff] at passed
    obtain ⟨_, ⟨rfl, -, fits⟩, same⟩ := passed
    cases same
    exact ⟨clock, looped, rfl, .inr ⟨executed, rfl, fits⟩⟩

namespace Visits

variable (visits : Visits index clock processes next after completions)
include visits

theorem keys : after.map Process.key = processes.map Process.key := by
  induction visits with
  | nil => rfl
  | cons visit _ ih =>
    rw [map_cons, map_cons, ih]
    cases visit <;> rfl

theorem completed : next.completed = clock.completed + completions.length := by
  induction visits with
  | nil => simp
  | cons visit _ ih =>
    rw [ih]
    cases visit with
    | skip => rfl
    | execute => rfl
    | complete =>
      simp only [if_true, length_cons]
      omega

theorem finished :
    (completions ++ finishedFrom index processes).Perm (finishedFrom index after) := by
  induction visits with
  | nil => exact .nil
  | @cons index _ _ _ process _ _ _ _ _ visit _ ih =>
    cases visit with
    | skip =>
      simp only [finishedFrom, Bool.false_eq_true, if_false]
      split
      · exact perm_middle.trans (ih.cons index)
      · exact ih
    | @execute time ready positive within fits =>
      have before : process.remainingTime ≠ 0 := by omega
      have after : (process.execute time).remainingTime ≠ 0 := by
        simp only [Process.execute]
        omega
      simpa only [finishedFrom, before, after, if_false, Bool.false_eq_true] using ih
    | complete ready fits =>
      have before : process.remainingTime ≠ 0 := ready.1.ne'
      simpa [finishedFrom, before, Process.complete] using ih

theorem fits (before : clock.currentTime ≤ intMax) : next.currentTime ≤ intMax := by
  induction visits with
  | nil => exact before
  | cons visit _ ih =>
    cases visit with
    | skip => exact ih before
    | execute _ _ _ fits | complete _ fits => exact ih fits

theorem currentTime_le : clock.currentTime ≤ next.currentTime := by
  induction visits with
  | nil => exact le_rfl
  | cons visit _ ih =>
    cases visit with
    | skip => exact ih
    | execute _ positive => simp only at ih; omega
    | complete ready =>
      have := ready.1
      simp only at ih
      omega

theorem currentTime_lt (before : clock.anyExecuted = false) (executed : next.anyExecuted) :
    clock.currentTime < next.currentTime := by
  induction visits with
  | nil => rw [before] at executed; cases executed
  | cons visit visits ih =>
    cases visit with
    | skip => exact ih before executed
    | execute _ positive =>
      have := visits.currentTime_le
      simp only at this
      omega
    | complete ready =>
      have := visits.currentTime_le
      have := ready.1
      simp only at *
      omega

theorem idle (idle : next.anyExecuted = false) :
    next = clock ∧ after = processes ∧
      ∀ process ∈ processes, ¬ Ready clock.currentTime process := by
  have stays : ∀ {index clock processes next after completions},
      Visits index clock processes next after completions → clock.anyExecuted →
        next.anyExecuted := by
    intro index clock processes next after completions visits executed
    induction visits with
    | nil => exact executed
    | cons visit _ ih => cases visit <;> exact ih (by first | exact executed | rfl)
  induction visits with
  | nil => exact ⟨rfl, rfl, nofun⟩
  | cons visit visits ih =>
    cases visit with
    | skip notReady =>
      obtain ⟨sameClock, sameRest, noneReady⟩ := ih idle
      exact ⟨sameClock, by rw [sameRest], forall_mem_cons.mpr ⟨notReady, noneReady⟩⟩
    | execute | complete => rw [stays visits rfl] at idle; cases idle

end Visits

end

/-- The times of a process are not negative, and those that are past lie before `currentTime`. -/
structure WellFormed (last currentTime : Int) (process : Process) : Prop where
  remaining : 0 ≤ process.remainingTime
  arrival : 0 ≤ process.arrivalTime
  burst : 0 ≤ process.burstTime
  burst_le : process.burstTime ≤ last
  arrived : process.remainingTime = 0 → process.arrivalTime ≤ currentTime
  completion : process.remainingTime = 0 → process.completionTime ≤ currentTime

/-- The rest of the work ends at `last`. -/
structure Sound (last currentTime completed : Int) (processes : List Process) : Prop where
  wellFormed : ∀ process ∈ processes, WellFormed last currentTime process
  finish : finish currentTime (processes.map Process.job) = last
  completed_nonneg : 0 ≤ completed
  completed_le : completed ≤ currentTime
  latest : (∀ process ∈ processes, process.remainingTime = 0) →
    ∃ process ∈ processes, process.completionTime = currentTime

theorem WellFormed.mono {last currentTime later : Int} {process : Process}
    (wellFormed : WellFormed last currentTime process) (le : currentTime ≤ later) :
    WellFormed last later process :=
  { wellFormed with
    arrived := fun done => (wellFormed.arrived done).trans le
    completion := fun done => (wellFormed.completion done).trans le }

namespace Sound

variable {last currentTime completed : Int} {processes before rest : List Process}
  {process : Process} {clock next : Clock} {isCompleted : Bool}

theorem work_nonneg (sound : Sound last currentTime completed processes) :
    ∀ job ∈ processes.map Process.job, 0 ≤ job.work :=
  forall_mem_map.mpr fun process member => (sound.wellFormed process member).remaining

theorem currentTime_le (sound : Sound last currentTime completed processes) : currentTime ≤ last :=
  sound.finish ▸ now_le_finish sound.work_nonneg

theorem execute {time : Int} (after : Process)
    (sound : Sound last clock.currentTime clock.completed (before ++ process :: rest))
    (ready : Ready clock.currentTime process) (positive : 0 < time)
    (within : time ≤ process.remainingTime)
    (job : after.job = ⟨process.arrivalTime, process.remainingTime - time⟩)
    (burst : after.burstTime = process.burstTime)
    (completion : after.remainingTime = 0 → after.completionTime = clock.currentTime + time)
    {count : Int} (countNonneg : 0 ≤ count) (countLe : count ≤ clock.completed + 1) :
    Sound last (clock.currentTime + time) count (before ++ after :: rest) := by
  obtain ⟨wellFormed, finish, completedNonneg, completedLe, -⟩ := sound
  have later : clock.currentTime ≤ clock.currentTime + time := by omega
  rw [forall_mem_append, forall_mem_cons] at wellFormed
  obtain ⟨beforeFormed, formed, restFormed⟩ := wellFormed
  have arrivalEq : after.arrivalTime = process.arrivalTime := congrArg Job.arrival job
  have remainingEq : after.remainingTime = process.remainingTime - time := congrArg Job.work job
  have afterFormed : WellFormed last (clock.currentTime + time) after :=
    ⟨by omega, arrivalEq ▸ formed.arrival, burst ▸ formed.burst, burst ▸ formed.burst_le,
      fun _ => arrivalEq ▸ ready.2.trans later, fun done => (completion done).le⟩
  refine ⟨?_, ?_, countNonneg, by omega, fun allDone => ?_⟩
  · rw [forall_mem_append, forall_mem_cons]
    exact ⟨fun other member => (beforeFormed other member).mono later, afterFormed,
      fun other member => (restFormed other member).mono later⟩
  · rw [← finish, map_append, map_cons, map_append, map_cons, job]
    refine finish_execute process.job ready.2 positive.le within ?_ ?_
    · exact forall_mem_map.mpr fun other member => (beforeFormed other member).remaining
    · exact forall_mem_map.mpr fun other member => (restFormed other member).remaining
  · have member : after ∈ before ++ after :: rest := mem_append_right _ mem_cons_self
    exact ⟨after, member, completion (allDone after member)⟩

theorem visit {after : Process}
    (sound : Sound last clock.currentTime clock.completed (before ++ process :: rest))
    (visit : Visit clock process next after isCompleted) :
    Sound last next.currentTime next.completed (before ++ after :: rest) := by
  have completedNonneg := sound.completed_nonneg
  cases visit with
  | skip => exact sound
  | execute ready positive within =>
    refine sound.execute (process.execute _) ready positive within.le rfl rfl (fun done => ?_)
      completedNonneg (Int.le_add_one le_rfl)
    simp only [Process.execute] at done
    omega
  | complete ready =>
    refine sound.execute (process.complete _) ready ready.1 le_rfl ?_ rfl (fun _ => rfl)
      (Int.le_add_one completedNonneg) le_rfl
    rw [Int.sub_self]
    rfl

theorem visits (before : List Process) {index : Nat} {after : List Process}
    {completions : List Nat}
    (sound : Sound last clock.currentTime clock.completed (before ++ rest))
    (visits : Visits index clock rest next after completions) :
    Sound last next.currentTime next.completed (before ++ after) := by
  induction visits generalizing before with
  | nil => exact sound
  | cons visit _ ih =>
    rw [append_cons]
    refine ih _ ?_
    rw [← append_cons]
    exact sound.visit visit

theorem exists_forLoop (before : List Process) (clock : Clock)
    (sound : Sound last clock.currentTime clock.completed (before ++ rest))
    (fits : last ≤ intMax) (index : Nat) :
    ∃ next after completions, forLoop index clock rest = some (next, after, completions) := by
  induction rest generalizing before clock index with
  | nil => exact ⟨clock, [], [], rfl⟩
  | cons process rest ih =>
    have member : process ∈ before ++ process :: rest := mem_append_right _ mem_cons_self
    have formed := sound.wellFormed process member
    have workLe := sound.finish ▸ now_add_work_le_finish sound.work_nonneg (mem_map_of_mem member)
    obtain ⟨middle, processAfter, isCompleted, visited⟩ :=
      exists_visit (workLe.trans fits) formed.arrival formed.burst
        (formed.burst_le.trans fits) sound.completed_nonneg sound.completed_le
    have middleSound := sound.visit (visit_cases visited)
    rw [append_cons] at middleSound
    obtain ⟨next, after, completions, looped⟩ := ih _ _ middleSound (index + 1)
    exact ⟨_, _, _, forLoop_cons.mpr ⟨_, _, _, _, _, visited, looped, rfl, rfl⟩⟩

theorem idle (sound : Sound last currentTime completed processes)
    (waiting : ∃ process ∈ processes, process.remainingTime ≠ 0)
    (noneReady : ∀ process ∈ processes, ¬ Ready currentTime process) :
    Sound last (currentTime + 1) completed processes := by
  have later : currentTime ≤ currentTime + 1 := Int.le_add_one le_rfl
  refine ⟨fun process member => (sound.wellFormed process member).mono later, ?_,
    sound.completed_nonneg, sound.completed_le.trans later, fun allDone => ?_⟩
  · rw [← sound.finish]
    obtain ⟨process, member, notDone⟩ := waiting
    refine finish_idle later ⟨process.job, mem_map_of_mem member, notDone⟩ ?_
    refine forall_mem_map.mpr fun other otherMember (hasWork : other.remainingTime ≠ 0) => ?_
    have remaining := (sound.wellFormed other otherMember).remaining
    have late : ¬ other.arrivalTime ≤ currentTime := fun arrived =>
      noneReady other otherMember ⟨by omega, arrived⟩
    exact Int.not_le.mp late
  · obtain ⟨process, member, notDone⟩ := waiting
    exact absurd (allDone process member) notDone

end Sound

section

variable {index : Nat} {processes : List Process}

theorem finishedFrom_of_done (done : ∀ process ∈ processes, process.remainingTime = 0) :
    finishedFrom index processes = range' index processes.length := by
  induction processes generalizing index with
  | nil => rfl
  | cons process rest ih =>
    rw [forall_mem_cons] at done
    rw [finishedFrom, if_pos done.1, ih done.2, length_cons, range'_succ]

theorem finishedFrom_eq_nil_iff :
    finishedFrom index processes = [] ↔ ∀ process ∈ processes, process.remainingTime ≠ 0 := by
  induction processes generalizing index with
  | nil => exact ⟨fun _ => nofun, fun _ => rfl⟩
  | cons process rest ih =>
    rw [finishedFrom, forall_mem_cons]
    split
    · rename_i done
      exact ⟨nofun, fun notDone => absurd done notDone.1⟩
    · rename_i notDone
      rw [ih]
      exact ⟨fun others => ⟨notDone, others⟩, fun all => all.2⟩

theorem length_finishedFrom_le : (finishedFrom index processes).length ≤ processes.length := by
  induction processes generalizing index with
  | nil => exact le_rfl
  | cons process rest ih =>
    have := @ih (index + 1)
    rw [finishedFrom]
    split <;> simp only [length_cons] <;> omega

theorem done_of_length_le (all : processes.length ≤ (finishedFrom index processes).length) :
    ∀ process ∈ processes, process.remainingTime = 0 := by
  induction processes generalizing index with
  | nil => exact nofun
  | cons process rest ih =>
    have restLe := @length_finishedFrom_le (index + 1) rest
    rw [finishedFrom] at all
    split at all
    · rename_i done
      exact forall_mem_cons.mpr ⟨done, ih (Nat.le_of_succ_le_succ all)⟩
    · simp only [length_cons] at all
      omega

end

structure Counted (initial : List Process) (state : State) (passes : List (List Nat)) :
    Prop where
  finished : (passes.flatten ++ finishedFrom 0 initial).Perm (finishedFrom 0 state.processes)
  completed : state.completed = passes.flatten.length

theorem Counted.pass {initial : List Process} {state next : State} {passes : List (List Nat)}
    {completions : List Nat} (counted : Counted initial state passes)
    (passed : RoundRobin.pass state = some (next, completions)) :
    Counted initial next (passes ++ [completions]) := by
  obtain ⟨clock, looped, count, -⟩ := pass_cases passed
  have visits := visits_of_forLoop looped
  have flatten : (passes ++ [completions]).flatten = passes.flatten ++ completions := by simp
  constructor
  · rw [flatten, append_assoc]
    refine (perm_append_comm_assoc _ _ _).trans ?_
    exact (counted.finished.append_left completions).trans visits.finished
  · rw [count, visits.completed, counted.completed, flatten, length_append]
    exact (Int.natCast_add _ _).symm

structure Progress (initial : List Process) (last : Int) (state : State)
    (passes : List (List Nat)) : Prop where
  sound : Sound last state.currentTime state.completed state.processes
  keys : state.processes.map Process.key = initial.map Process.key
  completions : passes.flatten.Perm (finishedFrom 0 state.processes)
  completed : state.completed = passes.flatten.length
  fits : state.currentTime ≤ intMax

namespace Progress

variable {initial : List Process} {last : Int} {state next : State}
  {passes : List (List Nat)} {completions : List Nat}
variable (progress : Progress initial last state passes)
include progress

theorem unfinished_iff :
    unfinished state ↔ ∃ process ∈ state.processes, process.remainingTime ≠ 0 := by
  have count : state.completed = (finishedFrom 0 state.processes).length := by
    rw [progress.completed, progress.completions.length_eq]
  rw [unfinished, decide_eq_true_iff, count, Int.ofNat_lt, ← not_iff_not]
  push Not
  constructor
  · exact done_of_length_le
  · intro done
    rw [finishedFrom_of_done done, length_range']

theorem pass (notDone : unfinished state)
    (passed : RoundRobin.pass state = some (next, completions)) :
    Progress initial last next (passes ++ [completions]) ∧
      state.currentTime < next.currentTime := by
  have counted : Counted [] next (passes ++ [completions]) :=
    Counted.pass ⟨by simpa [finishedFrom] using progress.completions, progress.completed⟩ passed
  have logged : (passes ++ [completions]).flatten.Perm (finishedFrom 0 next.processes) := by
    simpa [finishedFrom] using counted.finished
  obtain ⟨clock, looped, count, cases⟩ := pass_cases passed
  have visits := visits_of_forLoop looped
  have sound := Sound.visits [] progress.sound visits
  have keys := visits.keys.trans progress.keys
  rcases cases with ⟨executed, timeEq⟩ | ⟨idle, timeEq, fits⟩
  · refine ⟨⟨?_, keys, logged, counted.completed, ?_⟩, ?_⟩
    · rwa [timeEq, count]
    · rw [timeEq]
      exact visits.fits progress.fits
    · rw [timeEq]
      exact visits.currentTime_lt rfl executed
  · obtain ⟨rfl, same, noneReady⟩ := visits.idle idle
    rw [same] at sound
    have later := sound.idle (progress.unfinished_iff.mp notDone) noneReady
    refine ⟨⟨?_, keys, logged, counted.completed, fits⟩, ?_⟩
    · rwa [timeEq, count, same]
    · rw [timeEq]
      exact Int.lt_add_one_of_le le_rfl

theorem exists_pass (notDone : unfinished state) (fits : last ≤ intMax) :
    ∃ next completions, RoundRobin.pass state = some (next, completions) := by
  obtain ⟨clock, after, completions, looped⟩ :=
    Sound.exists_forLoop [] ⟨state.currentTime, state.completed, false⟩ progress.sound fits 0
  have visits := visits_of_forLoop looped
  rw [RoundRobin.pass, looped]
  cases executed : clock.anyExecuted with
  | true =>
    simp only [Option.bind_eq_bind, Option.bind_some, executed, if_true]
    exact ⟨_, _, rfl⟩
  | false =>
    obtain ⟨rfl, rfl, noneReady⟩ := visits.idle executed
    have later := (progress.sound.idle (progress.unfinished_iff.mp notDone)
      noneReady).currentTime_le
    have nonneg := progress.sound.completed_nonneg.trans progress.sound.completed_le
    have intMinLe : intMin ≤ 0 := by decide
    simp only [Option.bind_eq_bind, Option.bind_some, Bool.false_eq_true, if_false]
    rw [checked_bind (by omega) (later.trans fits)]
    exact ⟨_, _, rfl⟩

theorem done (ended : unfinished state = false) :
    (∀ process ∈ state.processes, process.remainingTime = 0) ∧
      passes.flatten.Perm (range state.processes.length) ∧
      (state.processes.map Process.completionTime).max? = some last ∧ last ≤ intMax := by
  have done : ∀ process ∈ state.processes, process.remainingTime = 0 := by
    have noneLeft := mt progress.unfinished_iff.mpr (by rw [ended]; exact Bool.false_ne_true)
    push Not at noneLeft
    exact noneLeft
  have lastEq : state.currentTime = last := by
    rw [← progress.sound.finish]
    refine (finish_of_done ?_ ?_).symm
    · exact forall_mem_map.mpr fun process member =>
        (progress.sound.wellFormed process member).arrived (done process member)
    · exact forall_mem_map.mpr done
  refine ⟨done, ?_, ?_, lastEq ▸ progress.fits⟩
  · rw [range_eq_range', ← finishedFrom_of_done done]
    exact progress.completions
  · rw [max?_eq_some_iff, ← lastEq]
    refine ⟨mem_map.mpr (progress.sound.latest done), ?_⟩
    exact forall_mem_map.mpr fun process member =>
      (progress.sound.wellFormed process member).completion (done process member)

end Progress

section

variable {processes scheduled : List Process} {completions : List Nat}

structure Fresh (process : Process) : Prop where
  arrival : 0 ≤ process.arrivalTime
  burst : 1 ≤ process.burstTime
  remaining : process.remainingTime = process.burstTime

theorem progress_start (nonempty : processes ≠ [])
    (fresh : ∀ process ∈ processes, Fresh process) :
    Progress processes (finish 0 (processes.map Process.job)) (start processes) [] := by
  have remaining : ∀ process ∈ processes, 0 < process.remainingTime := fun process member => by
    rw [(fresh process member).remaining]
    exact (fresh process member).burst
  have noneFinished : finishedFrom 0 processes = [] :=
    finishedFrom_eq_nil_iff.mpr fun process member => (remaining process member).ne'
  have nonneg : ∀ job ∈ processes.map Process.job, 0 ≤ job.work :=
    forall_mem_map.mpr fun process member => (remaining process member).le
  refine ⟨⟨fun process member => ?_, rfl, le_rfl, le_rfl, fun allDone => ?_⟩, rfl, ?_, rfl,
    show 0 ≤ intMax by decide⟩
  · obtain ⟨arrival, burst, remainingEq⟩ := fresh process member
    have burstLe : 0 + process.remainingTime ≤ finish 0 (processes.map Process.job) :=
      now_add_work_le_finish nonneg (mem_map_of_mem member)
    have notDone := (remaining process member).ne'
    exact ⟨(remaining process member).le, arrival, by omega, by omega,
      fun done => absurd done notDone, fun done => absurd done notDone⟩
  · obtain ⟨process, member⟩ := exists_mem_of_ne_nil processes nonempty
    exact absurd (allDone process member) (remaining process member).ne'
  · rw [start, noneFinished]
    exact .nil

theorem exists_schedule (nonempty : processes ≠ [])
    (fresh : ∀ process ∈ processes, Fresh process)
    (fits : finish 0 (processes.map Process.job) ≤ intMax) :
    ∃ scheduled completions, RoundRobinSchedule processes scheduled completions := by
  obtain ⟨passes, last, ended, -⟩ := exists_ends
    (Progress processes (finish 0 (processes.map Process.job)))
    (fun state _ => (finish 0 (processes.map Process.job) - state.currentTime).toNat)
    (fun progress notDone => by
      obtain ⟨next, completions, passed⟩ := progress.exists_pass notDone fits
      obtain ⟨kept, later⟩ := progress.pass notDone passed
      have := kept.sound.currentTime_le
      exact ⟨next, completions, passed, kept, by omega⟩)
    (progress_start nonempty fresh)
  exact ⟨last.processes, passes.flatten, passes, last, ended, rfl, rfl⟩

theorem RoundRobinSchedule.done (ended : RoundRobinSchedule processes scheduled completions)
    (nonempty : processes ≠ []) (fresh : ∀ process ∈ processes, Fresh process) :
    scheduled.map Process.key = processes.map Process.key ∧
      (∀ process ∈ scheduled, process.remainingTime = 0) ∧
      completions.Perm (range processes.length) ∧
      (scheduled.map Process.completionTime).max? = some (finish 0 (processes.map Process.job)) ∧
      finish 0 (processes.map Process.job) ≤ intMax := by
  obtain ⟨passes, last, ⟨iterates, ended⟩, rfl, rfl⟩ := ended
  have progress : Progress processes _ last passes :=
    iterates.invariant (Progress processes (finish 0 (processes.map Process.job)))
      (fun progress notDone passed => (progress.pass notDone passed).1)
      (progress_start nonempty fresh)
  obtain ⟨done, completed, latest, fits⟩ := progress.done ended
  have length : last.processes.length = processes.length := by
    simpa using congrArg length progress.keys
  exact ⟨progress.keys, done, length ▸ completed, latest, fits⟩

/-- It completes each process once, and ends when FCFS does, exactly if no time overflows. -/
theorem completes_with_fcfs_iff (nonempty : processes ≠ [])
    (fresh : ∀ process ∈ processes, Fresh process)
    {listed : List FirstComeFirstServe.Process}
    (same : (listed.map FirstComeFirstServe.Process.key).Perm (processes.map Process.key))
    (ordered : listed.Pairwise fun process other => process.arrivalTime ≤ other.arrivalTime) :
    (∃ scheduled completions served, RoundRobinSchedule processes scheduled completions ∧
      (∀ process ∈ scheduled, process.remainingTime = 0) ∧
      completions.Perm (range processes.length) ∧
      FirstComeFirstServe.fcfsSchedule listed = some served ∧
      (scheduled.map Process.completionTime).max? =
        (served.map FirstComeFirstServe.Process.completionTime).max?) ↔
    finish 0 (processes.map Process.job) ≤ intMax := by
  constructor
  · rintro ⟨scheduled, completions, served, ended, -⟩
    exact (ended.done nonempty fresh).2.2.2.2
  · intro fits
    have freshKey : ∀ key ∈ listed.map FirstComeFirstServe.Process.key,
        0 ≤ key.2.1 ∧ 1 ≤ key.2.2 := by
      intro key member
      obtain ⟨process, found, rfl⟩ := mem_map.mp (same.mem_iff.mp member)
      exact ⟨(fresh process found).arrival, (fresh process found).burst⟩
    rw [forall_mem_map] at freshKey
    have jobs : (listed.map FirstComeFirstServe.Process.job).Perm (processes.map Process.job) := by
      have toJob := same.map fun key => (⟨key.2.1, key.2.2⟩ : Job)
      rw [map_map, map_map] at toJob
      refine toJob.trans (List.Perm.of_eq (map_congr_left fun process member => ?_))
      simp [Process.job, Process.key, (fresh process member).remaining]
    obtain ⟨scheduled, completions, ended⟩ := exists_schedule nonempty fresh fits
    obtain ⟨-, done, completed, latest, -⟩ := ended.done nonempty fresh
    obtain ⟨served, servedEq, servedLe, exists_last⟩ :=
      FirstComeFirstServe.exists_serve (fun process member => (freshKey process member).1)
        (fun process member => (freshKey process member).2) ordered (finish_perm jobs ▸ fits)
    refine ⟨scheduled, completions, served, ended, done, completed, servedEq, latest.trans ?_⟩
    rw [eq_comm, max?_eq_some_iff, ← finish_perm jobs]
    refine ⟨mem_map.mpr (exists_last fun empty => nonempty ?_), forall_mem_map.mpr servedLe⟩
    simpa [empty] using same.length_eq.symm

theorem two_processes_complete_with_fcfs : ∃ scheduled completions served,
      RoundRobinSchedule [⟨1, 0, 3, 3, 0, 0, 0⟩, ⟨2, 1, 1, 1, 0, 0, 0⟩] scheduled completions ∧
      (∀ process ∈ scheduled, process.remainingTime = 0) ∧
      completions.Perm (range 2) ∧
      FirstComeFirstServe.fcfsSchedule [⟨1, 0, 3, 0, 0, 0⟩, ⟨2, 1, 1, 0, 0, 0⟩] = some served ∧
      (scheduled.map Process.completionTime).max? =
        (served.map FirstComeFirstServe.Process.completionTime).max? := by
  refine (completes_with_fcfs_iff (by simp) ?_ (List.Perm.refl _) (by decide)).mpr (by decide)
  rw [forall_mem_cons, forall_mem_singleton]
  exact ⟨⟨by decide, by decide, rfl⟩, ⟨by decide, by decide, rfl⟩⟩

theorem arrival_at_int_max_overflows : ¬ ∃ scheduled completions,
      RoundRobinSchedule [⟨1, 2147483647, 3, 3, 0, 0, 0⟩] scheduled completions := by
  rintro ⟨scheduled, completions, ended⟩
  have fits := (ended.done (by simp) (by
    rw [forall_mem_singleton]
    exact ⟨by decide, by decide, rfl⟩)).2.2.2.2
  exact absurd fits (by decide)

end

end BitsAndBytes.RoundRobin
