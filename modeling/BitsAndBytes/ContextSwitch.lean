import BitsAndBytes.OperationRuns

/-! # The timer interrupts of `contextSwitchHandler.c` -/

namespace BitsAndBytes.ContextSwitch

open OperationRuns Function List

inductive ProcessState
  | taskRunning
  | taskInterruptible
  | taskUninterruptible
  | taskStopped
  | taskZombie
deriving DecidableEq

structure CpuRegisters where
  rax : Nat
  rbx : Nat
  rcx : Nat
  fpuUsed : Bool
  mxcsr : Nat

structure SchedInfo where
  priority : Int
  timeSlice : UInt64
  totalTime : UInt64
  lastRan : UInt64

structure Pcb where
  state : ProcessState
  regs : CpuRegisters
  sched : SchedInfo
  voluntarySwitches : UInt64
  involuntarySwitches : UInt64

structure PerfStats where
  contextSwitches : UInt64
  avgSwitchTime : UInt64
  maxSwitchTime : UInt64

structure System where
  processes : Nat → Pcb
  numProcesses : Nat
  currentProcess : Nat
  currentIndex : Nat
  globalStats : PerfStats

def maxProcesses : Nat := 4

structure Interrupt where
  chance : Nat
  rax : Nat
  rbx : Nat
  rcx : Nat
  switchStart : UInt64
  accounting : UInt64
  switchEnd : UInt64

def calculateTimeSlice (process : Pcb) : UInt64 :=
  UInt64.ofNat (5 - process.sched.priority.tmod 5).toNat

def saveState (regs : CpuRegisters) (interrupt : Interrupt) : CpuRegisters :=
  { regs with
    rax := interrupt.rax % 1000
    rbx := interrupt.rbx % 1000
    rcx := interrupt.rcx % 1000
    mxcsr := if regs.fpuUsed then 0x1F80 else regs.mxcsr }

def selectLoop (system : System) : Nat → Nat → Option (Nat × Option Nat)
  | 0, _ => none
  | iterations + 1, index =>
    if system.numProcesses = 0 then none
    else
      let index := (index + 1) % system.numProcesses
      if (system.processes index).state = .taskRunning then some (index, some index)
      else if index ≠ system.currentIndex then selectLoop system iterations index
      else some (index, none)

def schedulerSelectNext (system : System) : Option (System × Nat) := do
  let (index, found) ← selectLoop system system.numProcesses system.currentIndex
  some ({ system with currentIndex := index }, found.getD system.currentProcess)

def accountPrev (prev : Pcb) (currentTime : UInt64) : Pcb :=
  { prev with
    sched := { prev.sched with
      totalTime := prev.sched.totalTime + (currentTime - prev.sched.lastRan) }
    voluntarySwitches :=
      if prev.state = .taskInterruptible then prev.voluntarySwitches + 1
      else prev.voluntarySwitches
    involuntarySwitches :=
      if prev.state = .taskInterruptible then prev.involuntarySwitches
      else prev.involuntarySwitches + 1 }

def accountNext (next : Pcb) (currentTime : UInt64) : Pcb :=
  { next with
    sched := { next.sched with lastRan := currentTime, timeSlice := calculateTimeSlice next } }

def updatePerfStats (stats : PerfStats) (interrupt : Interrupt) : Option PerfStats :=
  let switchTime := interrupt.switchEnd - interrupt.switchStart
  let contextSwitches := stats.contextSwitches + 1
  if contextSwitches = 0 then none
  else some {
    contextSwitches
    avgSwitchTime :=
      (stats.avgSwitchTime * (contextSwitches - 1) + switchTime) / contextSwitches
    maxSwitchTime :=
      if switchTime > stats.maxSwitchTime then switchTime else stats.maxSwitchTime }

/-- `context_switch`, for two different processes. -/
def contextSwitch (system : System) (prev next : Nat) (interrupt : Interrupt) : Option System := do
  let prevProcess := { system.processes prev with
    regs := saveState (system.processes prev).regs interrupt
    state := .taskInterruptible }
  let nextProcess := { system.processes next with state := .taskRunning }
  let globalStats ← updatePerfStats system.globalStats interrupt
  some { system with
    processes := update
      (update system.processes prev (accountPrev prevProcess interrupt.accounting))
      next (accountNext nextProcess interrupt.accounting)
    currentProcess := next
    globalStats }

def System.setTimeSlice (system : System) (process : Nat) (timeSlice : UInt64) : System :=
  { system with
    processes := update system.processes process { system.processes process with
      sched := { (system.processes process).sched with timeSlice } } }

def timerInterruptHandler (system : System) (interrupt : Interrupt) : Option (System × Unit) := do
  let prev := system.currentProcess
  let timeSlice := (system.processes prev).sched.timeSlice - 1
  let system := system.setTimeSlice prev timeSlice
  if timeSlice = 0 ∨ interrupt.chance % 3 = 0 then
    let (system, next) ← schedulerSelectNext system
    if next ≠ prev then do
      let system ← contextSwitch system prev next interrupt
      some (system, ())
    else
      some (system.setTimeSlice prev (calculateTimeSlice (system.processes prev)), ())
  else
    some (system, ())

structure Startup where
  priority : Int
  fpu : Nat
  time : UInt64

def initializeProcess (process : Pcb) (startup : Startup) : Pcb :=
  let process := { process with
    state := .taskRunning
    sched := { process.sched with priority := startup.priority } }
  { process with
    sched := { process.sched with
      timeSlice := calculateTimeSlice process, lastRan := startup.time }
    regs := { process.regs with fpuUsed := decide (startup.fpu % 2 = 0) } }

def zeroPcb : Pcb :=
  ⟨.taskRunning, ⟨0, 0, 0, false, 0⟩, ⟨0, 0, 0, 0⟩, 0, 0⟩

def initializeNext (system : System) (startup : Startup) : System :=
  { system with
    processes := update system.processes system.numProcesses
      (initializeProcess (system.processes system.numProcesses) startup)
    numProcesses := system.numProcesses + 1 }

def initialized (startups : List Startup) : System :=
  startups.foldl initializeNext ⟨fun _ => zeroPcb, 0, 0, 0, ⟨0, 0, 0⟩⟩

variable {startups : List Startup} {interrupt : Interrupt}

theorem initialized_spec (startups : List Startup) :
    (initialized startups).numProcesses = startups.length ∧ (∀ j (inside : j < startups.length),
        (initialized startups).processes j = initializeProcess zeroPcb startups[j]) ∧
      (∀ j, startups.length ≤ j → (initialized startups).processes j = zeroPcb) ∧
      (initialized startups).currentProcess = 0 ∧ (initialized startups).currentIndex = 0 ∧
      (initialized startups).globalStats = ⟨0, 0, 0⟩ := by
  induction startups using reverseRecOn with
  | nil => exact ⟨rfl, nofun, fun _ _ => rfl, rfl, rfl, rfl⟩
  | append_singleton startups startup ih =>
    obtain ⟨count, each, others, process, index, stats⟩ := ih
    have appended : initialized (startups ++ [startup]) =
        initializeNext (initialized startups) startup := by
      simp [initialized, foldl_append]
    rw [appended]
    refine ⟨by simp [initializeNext, count], fun j inside => ?_, fun j outside => ?_, process,
      index, stats⟩
    · by_cases last : j = startups.length
      · subst last
        simp [initializeNext, count, others]
      · have earlier : j < startups.length := by
          rw [length_append, length_singleton] at inside
          omega
        simp [initializeNext, count, last, each j earlier, getElem_append_left earlier]
    · rw [length_append, length_singleton] at outside
      have later : j ≠ startups.length := by omega
      simp [initializeNext, count, later, others j (by omega)]

/-- The time slice has not run out, and no random number asked for a switch. -/
def Unexpired (timeSlice : Nat) (past : List Interrupt) : Prop :=
  past.length < timeSlice ∧ ∀ interrupt ∈ past, interrupt.chance % 3 ≠ 0

/-- The processes from the current one on are `TASK_RUNNING`, and no others. -/
structure Current (count : Nat) (system : System) (current : Nat) : Prop where
  numProcesses : system.numProcesses = count
  currentProcess : system.currentProcess = current
  currentIndex : system.currentIndex = current
  lt : current < count
  running : ∀ j < count, (system.processes j).state = .taskRunning ↔ current ≤ j
  switches : system.globalStats.contextSwitches.toNat = current

structure Sliced (count firstSlice : Nat) (past : List Interrupt) (system : System)
    (current : Nat) : Prop where
  pos : 0 < (system.processes current).sched.timeSlice.toNat
  first : current = 0 → count = 1 ∨ Unexpired firstSlice past ∧
    (system.processes current).sched.timeSlice.toNat + past.length = firstSlice
  later : 0 < current → ¬ Unexpired firstSlice past

section

variable {count firstSlice current : Nat} {past : List Interrupt} {system : System}

theorem calculateTimeSlice_toNat (process : Pcb) :
    ((calculateTimeSlice process).toNat : Int) = 5 - process.sched.priority.tmod 5 := by
  have low := Int.lt_tmod_of_pos process.sched.priority (show (0 : Int) < 5 by decide)
  have high := Int.tmod_lt_of_pos process.sched.priority (show (0 : Int) < 5 by decide)
  rw [calculateTimeSlice, UInt64.toNat_ofNat']
  omega

theorem calculateTimeSlice_pos (process : Pcb) : 0 < (calculateTimeSlice process).toNat := by
  have value := calculateTimeSlice_toNat process
  have high := Int.tmod_lt_of_pos process.sched.priority (show (0 : Int) < 5 by decide)
  omega

theorem current_initialized (nonempty : 0 < startups.length) :
    Current startups.length (initialized startups) 0 ∧
      Sliced startups.length (calculateTimeSlice (initializeProcess zeroPcb startups[0])).toNat []
        (initialized startups) 0 := by
  obtain ⟨numProcesses, each, -, process, index, stats⟩ := initialized_spec startups
  have slice : ((initialized startups).processes 0).sched.timeSlice =
      calculateTimeSlice (initializeProcess zeroPcb startups[0]) := by
    rw [each 0 nonempty]
    rfl
  refine ⟨⟨numProcesses, process, index, nonempty, fun j jLt => ?_, by rw [stats]; rfl⟩,
    ⟨?_, fun _ => .inr ⟨⟨calculateTimeSlice_pos _, nofun⟩, ?_⟩, fun pos => absurd pos (by decide)⟩⟩
  · rw [each j jLt]
    simp [initializeProcess]
  · rw [slice]
    exact calculateTimeSlice_pos _
  · rw [slice]
    rfl

theorem selectLoop_eq {count target index iterations : Nat} (indexLt : index < target)
    (targetLt : target < count) (numProcesses : system.numProcesses = count)
    (skipped : ∀ j, index < j → j < target → (system.processes j).state ≠ .taskRunning ∧
      j ≠ system.currentIndex)
    (running : (system.processes target).state = .taskRunning)
    (enough : target ≤ index + iterations) :
    selectLoop system iterations index = some (target, some target) := by
  induction iterations generalizing index with
  | zero => omega
  | succ iterations ih =>
    rw [selectLoop, if_neg (by omega), numProcesses, Nat.mod_eq_of_lt (by omega)]
    by_cases found : index + 1 = target
    · simp only [found, running, if_pos]
    · obtain ⟨notRunning, other⟩ := skipped (index + 1) (by omega) (by omega)
      simp only [notRunning, if_false, other, ne_eq, not_false_eq_true, if_true]
      exact ih (by omega) (fun j after => skipped j (by omega)) (by omega)

theorem Current.setTimeSlice (isCurrent : Current count system current) (timeSlice : UInt64) :
    Current count (system.setTimeSlice current timeSlice) current := by
  obtain ⟨numProcesses, currentProcess, currentIndex, lt, running, switches⟩ := isCurrent
  refine ⟨numProcesses, currentProcess, currentIndex, lt, fun j jLt => ?_, switches⟩
  rw [← running j jLt]
  by_cases mine : j = current
  · subst mine
    simp [System.setTimeSlice]
  · simp [System.setTimeSlice, mine]

theorem setTimeSlice_self (timeSlice : UInt64) :
    ((system.setTimeSlice current timeSlice).processes current).sched.timeSlice = timeSlice := by
  simp [System.setTimeSlice]

theorem Current.schedulerSelectNext (isCurrent : Current count system current) :
    schedulerSelectNext system =
      if current + 1 < count then some ({ system with currentIndex := current + 1 }, current + 1)
      else some (system, current) := by
  obtain ⟨rfl, -, rfl, lt, running, -⟩ := isCurrent
  rw [ContextSwitch.schedulerSelectNext]
  split
  · rename_i inside
    rw [selectLoop_eq (Nat.lt_succ_self _) inside rfl (fun j after before => by omega)
      ((running _ inside).mpr (Nat.le_succ _)) (by omega)]
    rfl
  · have found : selectLoop system system.numProcesses system.currentIndex =
        some (system.currentIndex, some system.currentIndex) := by
      obtain ⟨rest, restEq⟩ : ∃ rest, system.numProcesses = rest + 1 :=
        ⟨system.numProcesses - 1, by omega⟩
      have wrapped : (system.currentIndex + 1) % (rest + 1) = 0 := by
        rw [show system.currentIndex + 1 = rest + 1 by omega, Nat.mod_self]
      rw [restEq, selectLoop, if_neg (by omega), restEq, wrapped]
      by_cases only : system.currentIndex = 0
      · have atZero := (running 0 (by omega)).mpr (by omega)
        simp only [atZero, if_true, only]
      · have notRunning : ¬ (system.processes 0).state = .taskRunning := fun isRunning =>
          only (Nat.le_zero.mp ((running 0 (by omega)).mp isRunning))
        simp only [notRunning, if_false, ne_eq, Ne.symm only, not_false_eq_true, if_true]
        refine selectLoop_eq (by omega) lt rfl (fun j _ before => ⟨fun isRunning => ?_,
          by omega⟩) ((running _ lt).mpr le_rfl) (by omega)
        have after := (running j (by omega)).mp isRunning
        omega
    rw [found]
    rfl

theorem Current.exists_contextSwitch (isCurrent : Current count system current)
    (few : count ≤ maxProcesses) (inside : current + 1 < count) (interrupt : Interrupt) :
    ∃ next, contextSwitch { system with currentIndex := current + 1 } current (current + 1)
        interrupt = some next ∧
      Current count next (current + 1) ∧
      0 < (next.processes (current + 1)).sched.timeSlice.toNat := by
  obtain ⟨numProcesses, currentProcess, currentIndex, lt, running, switches⟩ := isCurrent
  rw [maxProcesses] at few
  have counted : (system.globalStats.contextSwitches + 1).toNat = current + 1 := by
    have one : (1 : UInt64).toNat = 1 := rfl
    rw [UInt64.toNat_add, switches, one]
    exact Nat.mod_eq_of_lt (by omega)
  have nonzero : system.globalStats.contextSwitches + 1 ≠ 0 := fun zero => by
    rw [zero] at counted
    exact absurd counted (Nat.succ_ne_zero current).symm
  rw [contextSwitch, updatePerfStats, if_neg nonzero]
  refine ⟨_, rfl, ⟨numProcesses, rfl, rfl, inside, fun j jLt => ?_, counted⟩, ?_⟩
  · by_cases isNext : j = current + 1
    · simp [isNext, accountNext]
    · by_cases isPrev : j = current
      · simp [isPrev, accountPrev]
      · simp only [update_of_ne isNext, update_of_ne isPrev, running j jLt]
        omega
  · simp only [update_self, accountNext]
    exact calculateTimeSlice_pos _

theorem unexpired_concat :
    Unexpired firstSlice (past ++ [interrupt]) ↔ past.length + 1 < firstSlice ∧
      (∀ earlier ∈ past, earlier.chance % 3 ≠ 0) ∧ interrupt.chance % 3 ≠ 0 := by
  rw [Unexpired, length_append, length_singleton, forall_mem_append, forall_mem_singleton]

section

variable (sliced : Sliced count firstSlice past system current)
include sliced

theorem Sliced.toNat_sub_one : ((system.processes current).sched.timeSlice - 1).toNat =
      (system.processes current).sched.timeSlice.toNat - 1 :=
  UInt64.toNat_sub_of_le _ _ (UInt64.le_iff_toNat_le.mpr sliced.pos)

theorem Sliced.stillLater (interrupt : Interrupt) (isLater : 0 < current) :
    ¬ Unexpired firstSlice (past ++ [interrupt]) := by
  intro unexpired
  obtain ⟨short, never, -⟩ := unexpired_concat.mp unexpired
  exact sliced.later isLater ⟨by omega, never⟩

theorem Sliced.not_unexpired (inside : current + 1 < count)
    (expires : (system.processes current).sched.timeSlice - 1 = 0 ∨ interrupt.chance % 3 = 0) :
    ¬ Unexpired firstSlice (past ++ [interrupt]) := by
  by_cases isFirst : current = 0
  · intro unexpired
    obtain ⟨short, -, notChosen⟩ := unexpired_concat.mp unexpired
    obtain single | ⟨-, total⟩ := sliced.first isFirst
    · omega
    · rcases expires with zero | chosen
      · have decremented := sliced.toNat_sub_one
        have zeroNat : (0 : UInt64).toNat = 0 := rfl
        rw [zero] at decremented
        omega
      · exact notChosen chosen
  · exact sliced.stillLater interrupt (Nat.pos_of_ne_zero isFirst)

theorem Sliced.goesOn (notZero : (system.processes current).sched.timeSlice - 1 ≠ 0)
    (notChosen : interrupt.chance % 3 ≠ 0) :
    Sliced count firstSlice (past ++ [interrupt])
      (system.setTimeSlice current ((system.processes current).sched.timeSlice - 1)) current := by
  have decremented := sliced.toNat_sub_one
  have nonzero : ((system.processes current).sched.timeSlice - 1).toNat ≠ 0 := fun zero =>
    notZero (UInt64.toNat_inj.mp zero)
  refine ⟨?_, fun isFirst => ?_, sliced.stillLater interrupt⟩
  · rw [setTimeSlice_self]
    omega
  · refine (sliced.first isFirst).imp_right fun ⟨⟨short, never⟩, total⟩ => ⟨?_, ?_⟩
    · exact unexpired_concat.mpr ⟨by omega, never, notChosen⟩
    · rw [setTimeSlice_self, length_append, length_singleton]
      omega

end

theorem exists_timerInterruptHandler (few : count ≤ maxProcesses)
    (isCurrent : Current count system current)
    (sliced : Sliced count firstSlice past system current) (interrupt : Interrupt) :
    ∃ next after, timerInterruptHandler system interrupt = some (next, ()) ∧
      Current count next after ∧ Sliced count firstSlice (past ++ [interrupt]) next after := by
  have kept := isCurrent.setTimeSlice ((system.processes current).sched.timeSlice - 1)
  rw [timerInterruptHandler, isCurrent.currentProcess]
  split
  · rename_i expires
    rw [kept.schedulerSelectNext]
    by_cases inside : current + 1 < count
    · obtain ⟨next, switched, nextCurrent, nextPos⟩ :=
        kept.exists_contextSwitch few inside interrupt
      refine ⟨next, current + 1, ?_, nextCurrent, nextPos, by omega, fun _ =>
        sliced.not_unexpired inside expires⟩
      rw [if_pos inside]
      simp [switched]
    · refine ⟨_, current, by rw [if_neg inside]; simp; rfl, kept.setTimeSlice _, ?_, fun isFirst =>
        .inl ?_, sliced.stillLater interrupt⟩
      · rw [setTimeSlice_self]
        exact calculateTimeSlice_pos _
      · have lt := isCurrent.lt
        omega
  · rename_i goesOn
    obtain ⟨notZero, notChosen⟩ := not_or.mp goesOn
    exact ⟨_, current, rfl, kept, sliced.goesOn notZero notChosen⟩

theorem exists_reaches_sliced (nonempty : 0 < startups.length)
    (few : startups.length ≤ maxProcesses) (interrupts : List Interrupt) :
    ∃ final current, Reaches timerInterruptHandler (initialized startups) interrupts final ∧
      Current startups.length final current ∧
      Sliced startups.length (calculateTimeSlice (initializeProcess zeroPcb startups[0])).toNat
        interrupts final current := by
  induction interrupts using reverseRecOn with
  | nil => exact ⟨_, 0, ⟨[], rfl⟩, current_initialized nonempty⟩
  | append_singleton past interrupt ih =>
    obtain ⟨system, current, ⟨outs, ran⟩, isCurrent, sliced⟩ := ih
    obtain ⟨next, after, handled, nextCurrent, nextSliced⟩ :=
      exists_timerInterruptHandler few isCurrent sliced interrupt
    exact ⟨next, after, ⟨_, run_concat ran handled⟩, nextCurrent, nextSliced⟩

end

/-- All processes stay `TASK_RUNNING` exactly if there is one, or none has been switched out. -/
theorem all_running_iff_unexpired (startups : List Startup) (nonempty : 0 < startups.length)
    (few : startups.length ≤ maxProcesses) (interrupts : List Interrupt) :
    ∃ final, Reaches timerInterruptHandler (initialized startups) interrupts final ∧
      ((∀ j < startups.length, (final.processes j).state = .taskRunning) ↔ startups.length = 1 ∨
          ((interrupts.length : Int) < 5 - startups[0].priority.tmod 5 ∧
            ∀ interrupt ∈ interrupts, interrupt.chance % 3 ≠ 0)) := by
  have sliceEq : ((calculateTimeSlice (initializeProcess zeroPcb startups[0])).toNat : Int) =
      5 - startups[0].priority.tmod 5 := calculateTimeSlice_toNat _
  obtain ⟨final, current, reaches, isCurrent, sliced⟩ :=
    exists_reaches_sliced nonempty few interrupts
  refine ⟨final, reaches, ?_⟩
  have allRunning : (∀ j < startups.length, (final.processes j).state = .taskRunning) ↔
      current = 0 := by
    constructor
    · intro running
      exact Nat.le_zero.mp ((isCurrent.running 0 nonempty).mp (running 0 nonempty))
    · rintro rfl j jLt
      exact (isCurrent.running j jLt).mpr (Nat.zero_le j)
  rw [allRunning, ← sliceEq, Int.ofNat_lt, ← Unexpired]
  constructor
  · intro isFirst
    exact (sliced.first isFirst).imp_right And.left
  · rintro (single | unexpired)
    · have lt := isCurrent.lt
      omega
    · by_contra isLater
      exact sliced.later (Nat.pos_of_ne_zero isLater) unexpired

def mainStartups : List Startup :=
  [⟨2, 0, 0⟩, ⟨1, 0, 0⟩, ⟨0, 0, 0⟩, ⟨3, 0, 0⟩]

def quietInterrupt : Interrupt :=
  ⟨1, 0, 0, 0, 0, 0, 0⟩

theorem all_running_after_two_interrupts :
    ∃ final, Reaches timerInterruptHandler (initialized mainStartups)
        [quietInterrupt, quietInterrupt] final ∧
      ∀ j < 4, (final.processes j).state = .taskRunning := by
  obtain ⟨final, reaches, running⟩ := all_running_iff_unexpired mainStartups (by decide)
    (by decide) [quietInterrupt, quietInterrupt]
  refine ⟨final, reaches, running.mpr (.inr ⟨by decide, ?_⟩)⟩
  simp [quietInterrupt]

theorem first_process_lost_after_three_interrupts :
    ∃ final, Reaches timerInterruptHandler (initialized mainStartups)
        [quietInterrupt, quietInterrupt, quietInterrupt] final ∧
      (final.processes 0).state ≠ .taskRunning := by
  refine ⟨_, ⟨_, rfl⟩, ?_⟩
  decide

/-- The current process is `TASK_RUNNING`, with a time slice of at least one. -/
theorem current_slice_pos_and_running (startups : List Startup)
    (nonempty : 0 < startups.length) (few : startups.length ≤ maxProcesses)
    (interrupts : List Interrupt) :
    ∃ system, Reaches timerInterruptHandler (initialized startups) interrupts system ∧
      (system.processes system.currentProcess).state = .taskRunning ∧
      1 ≤ (system.processes system.currentProcess).sched.timeSlice.toNat ∧
      ((system.processes system.currentProcess).sched.timeSlice - 1).toNat =
        (system.processes system.currentProcess).sched.timeSlice.toNat - 1 := by
  obtain ⟨system, current, reaches, isCurrent, sliced⟩ :=
    exists_reaches_sliced nonempty few interrupts
  refine ⟨system, reaches, ?_⟩
  rw [isCurrent.currentProcess]
  exact ⟨(isCurrent.running current isCurrent.lt).mpr le_rfl, sliced.pos, sliced.toNat_sub_one⟩

theorem current_slice_pos_after_three_interrupts :
    ∃ system, Reaches timerInterruptHandler (initialized mainStartups)
        [quietInterrupt, quietInterrupt, quietInterrupt] system ∧
      (system.processes system.currentProcess).state = .taskRunning ∧
      1 ≤ (system.processes system.currentProcess).sched.timeSlice.toNat ∧
      ((system.processes system.currentProcess).sched.timeSlice - 1).toNat =
        (system.processes system.currentProcess).sched.timeSlice.toNat - 1 :=
  current_slice_pos_and_running mainStartups (by decide) (by decide) _

end BitsAndBytes.ContextSwitch
