import BitsAndBytes.ArrayQueue
import BitsAndBytes.SignedInt

/-! # The scheduler of `multi_level_queuing.c` -/

namespace BitsAndBytes.MultiLevelQueue

open SignedInt Function List

def maxQueues : Nat := 3

def maxProcesses : Nat := 100

structure MLFQProcess where
  pid : Int
  burstTime : Int
  remainingTime : Int
  queueLevel : Int
  quantumUsed : Int

structure Queue where
  processes : ArrayQueue Nat
  quantum : Int

structure MLFQ where
  queues : Nat → Queue
  memory : Nat → Option MLFQProcess
  allocated : Nat

def quantum (i : Nat) : Int :=
  ((1 <<< i : Nat) : Int)

def initMlfq (cells : Nat → Nat → Nat) : MLFQ where
  queues := fun i => ⟨⟨cells i, 0⟩, quantum i⟩
  memory := fun _ => none
  allocated := 0

def addProcess (mlfq : MLFQ) (pid burstTime : Int) : Option MLFQ := do
  let topQueue ← (mlfq.queues 0).processes.push maxProcesses mlfq.allocated
  some {
    queues := update mlfq.queues 0 { mlfq.queues 0 with processes := topQueue }
    memory := update mlfq.memory mlfq.allocated
      (some ⟨pid, burstTime, burstTime, 0, 0⟩)
    allocated := mlfq.allocated + 1 }

def addProcesses (mlfq : MLFQ) : List (Int × Int) → Option MLFQ
  | [] => some mlfq
  | process :: rest => do
      let mlfq ← addProcess mlfq process.1 process.2
      addProcesses mlfq rest

structure Slice where
  process : Nat
  level : Nat
  waiting : Bool
  completed : Bool
deriving DecidableEq

def executeFirst (mlfq : MLFQ) (i : Nat) : Option (MLFQ × Slice) := do
  let currentQueue := mlfq.queues i
  let pointer := currentQueue.processes.cells 0
  let waiting := decide (currentQueue.processes.count > 1)
  let process ← mlfq.memory pointer
  let remainingTime ← checked (process.remainingTime - 1)
  let quantumUsed ← checked (process.quantumUsed + 1)
  let rest := { currentQueue with processes := currentQueue.processes.removeFirst }
  if remainingTime = 0 then
    some ({ mlfq with
      queues := update mlfq.queues i rest
      memory := update mlfq.memory pointer none }, ⟨pointer, i, waiting, true⟩)
  else if quantumUsed ≥ currentQueue.quantum ∧ i < maxQueues - 1 then do
    let queueLevel ← checked (process.queueLevel + 1)
    let nextQueue := mlfq.queues (i + 1)
    let moved ← nextQueue.processes.push maxProcesses pointer
    some ({ mlfq with
      queues := update
        (update mlfq.queues (i + 1) { nextQueue with processes := moved }) i rest
      memory := update mlfq.memory pointer
        (some { process with remainingTime, queueLevel, quantumUsed := 0 }) },
      ⟨pointer, i, waiting, false⟩)
  else
    some ({ mlfq with
      memory := update mlfq.memory pointer
        (some { process with remainingTime, quantumUsed }) }, ⟨pointer, i, waiting, false⟩)

def firstBusy (mlfq : MLFQ) : Option Nat :=
  (range maxQueues).find? fun i => (mlfq.queues i).processes.count > 0

def executeTimeSlice (mlfq : MLFQ) : Option (MLFQ × List Slice) :=
  match firstBusy mlfq with
  | none => some (mlfq, [])
  | some i => (executeFirst mlfq i).map fun executed => (executed.1, [executed.2])

def processesRemaining (mlfq : MLFQ) : Bool :=
  (range maxQueues).any fun i => (mlfq.queues i).processes.count > 0

structure View where
  queues : Nat → List Nat
  memory : Nat → Option MLFQProcess

def MLFQ.view (mlfq : MLFQ) : View :=
  ⟨fun i => (mlfq.queues i).processes.contents, mlfq.memory⟩

/-- The process is the first of the first queue that is not empty. -/
structure Front (view : View) (i pointer : Nat) (rest : List Nat) (process : MLFQProcess) :
    Prop where
  level_lt : i < maxQueues
  earlier : ∀ j < i, view.queues j = []
  first : view.queues i = pointer :: rest
  allocated : view.memory pointer = some process

/-- A time slice completes the process, moves it down, or leaves it in front. -/
inductive Executes (view : View) : View → Slice → Prop
  | complete {i pointer rest process} (front : Front view i pointer rest process)
      (last : process.remainingTime = 1) :
      Executes view
        ⟨update view.queues i rest, update view.memory pointer none⟩
        ⟨pointer, i, !rest.isEmpty, true⟩
  | demote {i pointer rest process} (front : Front view i pointer rest process)
      (unfinished : process.remainingTime ≠ 1)
      (used : process.quantumUsed + 1 ≥ quantum i) (notLowest : i < maxQueues - 1) :
      Executes view
        ⟨update (update view.queues (i + 1) (view.queues (i + 1) ++ [pointer])) i rest,
          update view.memory pointer (some { process with
            remainingTime := process.remainingTime - 1
            queueLevel := process.queueLevel + 1
            quantumUsed := 0 })⟩
        ⟨pointer, i, !rest.isEmpty, false⟩
  | stay {i pointer rest process} (front : Front view i pointer rest process)
      (unfinished : process.remainingTime ≠ 1)
      (stays : ¬ (process.quantumUsed + 1 ≥ quantum i ∧ i < maxQueues - 1)) :
      Executes view
        ⟨view.queues, update view.memory pointer (some { process with
          remainingTime := process.remainingTime - 1
          quantumUsed := process.quantumUsed + 1 })⟩
        ⟨pointer, i, !rest.isEmpty, false⟩

def Quanta (mlfq : MLFQ) : Prop :=
  ∀ i, (mlfq.queues i).quantum = quantum i

section

variable {mlfq next : MLFQ} {slices : List Slice} {slice : Slice} {i : Nat}

theorem firstBusy_eq_some (busy : firstBusy mlfq = some i) :
    i < maxQueues ∧ (∀ j < i, mlfq.view.queues j = []) ∧ (mlfq.queues i).processes.count ≠ 0 := by
  obtain ⟨isBusy, before, after, split, noneBefore⟩ := find?_eq_some_iff_append.mp busy
  have sorted : (before ++ i :: after).Pairwise (· < ·) := split ▸ pairwise_lt_range
  have member : i ∈ range maxQueues := split ▸ mem_append_right _ mem_cons_self
  refine ⟨mem_range.mp member, fun j jLt => ?_, by simpa [Nat.pos_iff_ne_zero] using isBusy⟩
  have inRange : j ∈ before ++ i :: after :=
    split ▸ mem_range.mpr (Nat.lt_trans jLt (mem_range.mp member))
  rcases mem_append.mp inRange with found | found
  · exact ArrayQueue.contents_eq_nil_iff.mpr (by simpa using noneBefore j found)
  · rcases mem_cons.mp found with rfl | behind
    · exact absurd jLt (Nat.lt_irrefl j)
    · have := (pairwise_cons.mp (pairwise_append.mp sorted).2.1).1 j behind
      omega

theorem exists_firstBusy : processesRemaining mlfq ↔ ∃ i, firstBusy mlfq = some i := by
  rw [firstBusy, ← Option.isSome_iff_exists, find?_isSome, processesRemaining, any_eq_true]

theorem contents_update (queues : Nat → Queue) (i : Nat) (queue : Queue) :
    (fun j => (update queues i queue j).processes.contents) =
      update (fun j => (queues j).processes.contents) i queue.processes.contents :=
  funext (apply_update (fun _ queue => queue.processes.contents) queues i queue)

theorem waiting_eq {queue : ArrayQueue Nat} :
    decide (queue.count > 1) = !queue.removeFirst.contents.isEmpty := by
  have length : queue.removeFirst.contents.length = queue.count - 1 := ArrayQueue.length_contents _
  rw [Bool.eq_iff_iff, decide_eq_true_iff, Bool.not_eq_true', ← Bool.not_eq_true,
    List.isEmpty_iff, ← length_eq_zero_iff, length]
  omega

theorem quantum_update {queues : Nat → Queue} (quanta : ∀ j, (queues j).quantum = quantum j)
    {queue : Queue} (same : queue.quantum = quantum i) :
    ∀ j, (update queues i queue j).quantum = quantum j := by
  intro j
  by_cases here : j = i
  · subst here
    rwa [update_self]
  · rw [update_of_ne here]
    exact quanta j

theorem executes_of_executeFirst (quanta : Quanta mlfq) (level : i < maxQueues)
    (earlier : ∀ j < i, mlfq.view.queues j = [])
    (notEmpty : (mlfq.queues i).processes.count ≠ 0)
    (executed : executeFirst mlfq i = some (next, slice)) :
    Executes mlfq.view next.view slice ∧ Quanta next := by
  have contents := ArrayQueue.contents_eq_cons notEmpty
  simp only [executeFirst, waiting_eq, Option.bind_eq_bind, Option.bind_eq_some_iff,
    checked_eq_some_iff] at executed
  obtain ⟨process, allocated, _, ⟨rfl, -⟩, _, ⟨rfl, -⟩, executed⟩ := executed
  have front : Front mlfq.view i _ _ process := ⟨level, earlier, contents, allocated⟩
  split at executed
  · rename_i last
    cases executed
    refine ⟨?_, quantum_update quanta (quanta i)⟩
    simp only [MLFQ.view, contents_update]
    exact .complete front (by omega)
  · rename_i unfinished
    rw [quanta i] at executed
    split at executed
    · rename_i used
      simp only [Option.bind_eq_some_iff, checked_eq_some_iff] at executed
      obtain ⟨_, ⟨rfl, -⟩, moved, pushed, executed⟩ := executed
      cases executed
      have movedContents := (ArrayQueue.push_eq_some pushed).2
      have movedQuantum : ({ mlfq.queues (i + 1) with processes := moved } : Queue).quantum =
          quantum (i + 1) := quanta (i + 1)
      refine ⟨?_, quantum_update (quantum_update quanta movedQuantum) (by rfl)⟩
      simp only [MLFQ.view, contents_update, movedContents]
      exact .demote front (by omega) used.1 used.2
    · rename_i stays
      cases executed
      exact ⟨.stay front (by omega) stays, quanta⟩

theorem executes_of_executeTimeSlice (quanta : Quanta mlfq)
    (remaining : processesRemaining mlfq)
    (executed : executeTimeSlice mlfq = some (next, slices)) :
    ∃ slice, slices = [slice] ∧ Executes mlfq.view next.view slice ∧ Quanta next := by
  obtain ⟨i, busy⟩ := exists_firstBusy.mp remaining
  obtain ⟨level, earlier, notEmpty⟩ := firstBusy_eq_some busy
  rw [executeTimeSlice, busy] at executed
  obtain ⟨⟨after, slice⟩, first, ⟨⟩⟩ := Option.map_eq_some_iff.mp executed
  exact ⟨slice, rfl, executes_of_executeFirst quanta level earlier notEmpty first⟩

theorem exists_executeTimeSlice (remaining : processesRemaining mlfq)
    (safe : ∀ {i pointer rest process}, Front mlfq.view i pointer rest process →
      intMin < process.remainingTime ∧ process.remainingTime ≤ intMax ∧
      0 ≤ process.quantumUsed ∧ process.quantumUsed < intMax ∧ process.queueLevel = i ∧
      (i < maxQueues - 1 → (mlfq.view.queues (i + 1)).length < maxProcesses))
    (allocated : ∀ i < maxQueues, ∀ pointer ∈ mlfq.view.queues i,
      ∃ process, mlfq.memory pointer = some process) :
    ∃ next slices, executeTimeSlice mlfq = some (next, slices) := by
  obtain ⟨i, busy⟩ := exists_firstBusy.mp remaining
  obtain ⟨level, earlier, notEmpty⟩ := firstBusy_eq_some busy
  have contents : mlfq.view.queues i = _ := ArrayQueue.contents_eq_cons notEmpty
  obtain ⟨process, found⟩ := allocated i level _ (contents ▸ mem_cons_self)
  obtain ⟨low, high, usedNonneg, usedLt, levelEq, room⟩ := safe ⟨level, earlier, contents, found⟩
  have bounds : intMin = -2147483648 ∧ intMax = 2147483647 ∧ i < 3 := ⟨rfl, rfl, level⟩
  have first : ∃ result, executeFirst mlfq i = some result := by
    simp only [executeFirst, found, Option.bind_eq_bind, Option.bind_some]
    rw [checked_bind (by omega) (by omega), checked_bind (by omega) (by omega)]
    split
    · exact ⟨_, rfl⟩
    · split
      · rename_i used
        obtain ⟨moved, pushed⟩ := ArrayQueue.exists_push
          (by simpa [MLFQ.view] using room used.2) ((mlfq.queues i).processes.cells 0)
        rw [checked_bind (by omega) (by omega), pushed]
        exact ⟨_, rfl⟩
      · exact ⟨_, rfl⟩
  obtain ⟨result, executed⟩ := first
  exact ⟨result.1, [result.2], by simp only [executeTimeSlice, busy, executed, Option.map_some]⟩

end

end BitsAndBytes.MultiLevelQueue
