import BitsAndBytes.LeastFirst
import BitsAndBytes.OperationRuns
import BitsAndBytes.SelectionSort
import BitsAndBytes.SignedInt
import Mathlib.Tactic.Linarith
import Mathlib.Tactic.Ring

/-! # The scheduler of `completely_fair_scheduler.c` -/

namespace BitsAndBytes.CompletelyFair

open LeastFirst OperationRuns SelectionSort SignedInt List Option Finset

/-- `CFSProcess`, without the `pid`, which is only printed. -/
structure CFSProcess where
  niceValue : Int
  vruntime : Nat
  weight : Nat

def ulongValues : Nat := 18446744073709551616

def maxNice : Int := 19

def calculateWeight (nice : Int) : Option Nat := do
  let above ← checked (maxNice - nice)
  let steps ← checked (above + 1)
  let product ← checked (steps * 100)
  some (product % ulongValues).toNat

def updateVruntime (process : CFSProcess) (runtime : Nat) : Option CFSProcess :=
  if process.weight = 0 then none
  else some { process with
    vruntime := (process.vruntime + runtime * 1024 % ulongValues / process.weight) % ulongValues }

def findMinVruntimeProcess (processes : List CFSProcess) : Option Nat :=
  (firstLeast (fun _ => true) (fun entry => entry.1.vruntime) processes.zipIdx).map Prod.snd

def initializeWeights : List CFSProcess → Option (List CFSProcess)
  | [] => some []
  | process :: rest => do
      let weight ← calculateWeight process.niceValue
      let rest ← initializeWeights rest
      some ({ process with weight, vruntime := 0 } :: rest)

def tick (processes : List CFSProcess) (_ : Unit) : Option (List CFSProcess × Nat) := do
  let nextProcess ← findMinVruntimeProcess processes
  let process ← processes[nextProcess]?
  let updated ← updateVruntime process 1
  some (processes.set nextProcess updated, nextProcess)

def simulateCfs (processes : List CFSProcess) (simulationTime : Int) :
    Option (List CFSProcess × List Nat) := do
  let initialized ← initializeWeights processes
  run tick initialized (replicate simulationTime.toNat ())

/-- Ticks are in proportion to the weights, up to the larger weight. -/
def ProportionalShare (processes : List CFSProcess) (ticks : List Nat) : Prop :=
  ∀ i j first second firstWeight secondWeight,
    processes[i]? = some first → processes[j]? = some second →
    calculateWeight first.niceValue = some firstWeight →
    calculateWeight second.niceValue = some secondWeight →
    |(ticks.count i : Int) * secondWeight - ticks.count j * firstWeight| ≤
      max firstWeight secondWeight

/-- Nice values are at least 10, and the charges in inverse proportion to the weights. -/
def ExactCharges (processes : List CFSProcess) : Prop :=
  (∀ process ∈ processes, 10 ≤ process.niceValue) ∧
    ∀ first ∈ processes, ∀ second ∈ processes, ∀ firstWeight secondWeight,
      calculateWeight first.niceValue = some firstWeight →
      calculateWeight second.niceValue = some secondWeight →
      firstWeight * (1024 / firstWeight) = secondWeight * (1024 / secondWeight)

def InRange (processes : List CFSProcess) : Prop :=
  ∀ process ∈ processes, -20 ≤ process.niceValue ∧ process.niceValue ≤ maxNice

def weightOf (nice : Int) : Nat :=
  (maxNice - nice + 1).toNat * 100

theorem calculateWeight_eq {nice : Int} (range : -20 ≤ nice ∧ nice ≤ maxNice) :
    calculateWeight nice = some (weightOf nice) := by
  obtain ⟨low, high⟩ := range
  rw [maxNice] at high
  simp only [calculateWeight, bind_eq_bind, maxNice]
  rw [checked_bind (by rw [intMin]; omega) (by rw [intMax]; omega),
    checked_bind (by rw [intMin]; omega) (by rw [intMax]; omega),
    checked_bind (by rw [intMin]; omega) (by rw [intMax]; omega), weightOf, maxNice, ulongValues]
  congr 1
  omega

section

variable {processes : List CFSProcess} {process : CFSProcess} {i j : Nat}

def weight (processes : List CFSProcess) (i : Nat) : Nat :=
  match processes[i]? with
  | some process => weightOf process.niceValue
  | none => 0

def charge (processes : List CFSProcess) (i : Nat) : Nat :=
  1024 / weight processes i

theorem weight_eq (found : processes[i]? = some process) :
    weight processes i = weightOf process.niceValue := by
  rw [weight, found]

theorem exists_weight (inRange : InRange processes) (inside : i < processes.length) :
    ∃ steps, weight processes i = steps * 100 ∧ 1 ≤ steps ∧ steps ≤ 40 := by
  obtain ⟨low, high⟩ := inRange _ (getElem_mem inside)
  rw [weight_eq (getElem?_eq_getElem inside), weightOf]
  rw [maxNice] at high ⊢
  exact ⟨_, rfl, by omega, by omega⟩

theorem charge_le (inRange : InRange processes) (inside : i < processes.length) :
    charge processes i ≤ 10 := by
  obtain ⟨steps, weightEq, positive, -⟩ := exists_weight inRange inside
  exact Nat.lt_succ_iff.mp ((Nat.div_lt_iff_lt_mul (by omega)).mpr (by omega))

theorem weight_mul_charge_le (processes : List CFSProcess) (i : Nat) :
    weight processes i * charge processes i ≤ 1024 := Nat.mul_div_le _ _

theorem charge_pos_iff (inside : i < processes.length) (inRange : InRange processes) :
    0 < charge processes i ↔ 10 ≤ processes[i].niceValue := by
  obtain ⟨low, high⟩ := inRange _ (getElem_mem inside)
  rw [charge, weight_eq (getElem?_eq_getElem inside), weightOf, Nat.div_pos_iff]
  rw [maxNice] at high ⊢
  omega

theorem proportionalShare_iff (inRange : InRange processes) {ticks : List Nat} :
    ProportionalShare processes ticks ↔
      ∀ i < processes.length, ∀ j < processes.length, ticks.count i * weight processes j ≤
          ticks.count j * weight processes i + max (weight processes i) (weight processes j) := by
  constructor
  · intro shares i iLt j jLt
    have bounded := shares i j _ _ _ _ (getElem?_eq_getElem iLt)
      (getElem?_eq_getElem jLt) (calculateWeight_eq (inRange _ (getElem_mem iLt)))
      (calculateWeight_eq (inRange _ (getElem_mem jLt)))
    rw [← weight_eq (getElem?_eq_getElem iLt), ← weight_eq (getElem?_eq_getElem jLt)]
      at bounded
    have upper := (abs_le.mp bounded).2
    rw [tsub_le_iff_right, add_comm] at upper
    exact_mod_cast upper
  · intro shares i j first second firstWeight secondWeight atFirst atSecond firstEq secondEq
    obtain ⟨iLt, rfl⟩ := List.getElem?_eq_some_iff.mp atFirst
    obtain ⟨jLt, rfl⟩ := List.getElem?_eq_some_iff.mp atSecond
    rw [calculateWeight_eq (inRange _ (getElem_mem iLt)), ← weight_eq atFirst,
      some.injEq] at firstEq
    rw [calculateWeight_eq (inRange _ (getElem_mem jLt)), ← weight_eq atSecond,
      some.injEq] at secondEq
    subst firstEq secondEq
    have upper := shares i iLt j jLt
    have lower := shares j jLt i iLt
    rw [max_comm] at lower
    rw [abs_le, Nat.cast_max]
    constructor
    · linarith
    · linarith

theorem exactCharges_iff (inRange : InRange processes) : ExactCharges processes ↔
      (∀ i < processes.length, 0 < charge processes i) ∧
        ∀ i < processes.length, ∀ j < processes.length,
          weight processes i * charge processes i = weight processes j * charge processes j := by
  have weighs : ∀ {i} (inside : i < processes.length),
      calculateWeight processes[i].niceValue = some (weight processes i) := fun inside => by
    rw [weight_eq (getElem?_eq_getElem inside)]
    exact calculateWeight_eq (inRange _ (getElem_mem inside))
  rw [ExactCharges, forall_mem_iff_getElem]
  constructor
  · rintro ⟨slow, same⟩
    exact ⟨fun i iLt => (charge_pos_iff iLt inRange).mpr (slow i iLt), fun i iLt j jLt =>
      same _ (getElem_mem iLt) _ (getElem_mem jLt) _ _ (weighs iLt) (weighs jLt)⟩
  · rintro ⟨slow, same⟩
    refine ⟨fun i iLt => (charge_pos_iff iLt inRange).mp (slow i iLt), ?_⟩
    intro first firstMem second secondMem firstWeight secondWeight firstEq secondEq
    obtain ⟨i, iLt, rfl⟩ := mem_iff_getElem.mp firstMem
    obtain ⟨j, jLt, rfl⟩ := mem_iff_getElem.mp secondMem
    rw [weighs iLt, some.injEq] at firstEq
    rw [weighs jLt, some.injEq] at secondEq
    subst firstEq secondEq
    exact same i iLt j jLt

end

structure FirstMin (count : Nat) (clock : Nat → Nat) (next : Nat) : Prop where
  lt : next < count
  le : ∀ j < count, clock next ≤ clock j
  lt_earlier : ∀ j < next, clock next < clock j

def vruntime (processes : List CFSProcess) (past : List Nat) (i : Nat) : Nat :=
  account (charge processes) past i % ulongValues

def after (processes : List CFSProcess) (past : List Nat) : List CFSProcess :=
  processes.mapIdx fun i process =>
    { process with weight := weight processes i, vruntime := vruntime processes past i }

/-- The histories in which the first process with the least virtual runtime is always next. -/
inductive Scheduled (processes : List CFSProcess) : List Nat → Prop
  | nil : Scheduled processes []
  | concat {past : List Nat} {next : Nat} (scheduled : Scheduled processes past)
      (isMin : FirstMin processes.length (vruntime processes past) next) :
      Scheduled processes (past ++ [next])

section

variable {processes : List CFSProcess} {past : List Nat}

theorem initializeWeights_eq (inRange : InRange processes) :
    initializeWeights processes = some (after processes []) := by
  have each : after processes [] = processes.map fun process =>
      { process with weight := weightOf process.niceValue, vruntime := 0 } := by
    refine ext_getElem (by simp [after]) fun i inside _ => ?_
    rw [after, length_mapIdx] at inside
    simp [after, vruntime, account, weight_eq (getElem?_eq_getElem inside)]
  rw [each]
  clear each
  induction processes with
  | nil => rfl
  | cons process rest ih =>
    obtain ⟨range, restInRange⟩ := forall_mem_cons.mp inRange
    rw [initializeWeights, calculateWeight_eq range, ih restInRange]
    rfl

theorem exists_findMin {state : List CFSProcess} (clock : Nat → Nat) (nonempty : state ≠ [])
    (clockEq : ∀ j (inside : j < state.length), state[j].vruntime = clock j) :
    ∃ next, findMinVruntimeProcess state = some next ∧ FirstMin state.length clock next := by
  rcases firstLeast_zipIdx_cases (fun _ => true) CFSProcess.vruntime state with
    ⟨-, rejected⟩ | ⟨before, process, later, found, split, isFirst⟩
  · obtain ⟨process, member⟩ := exists_mem_of_ne_nil state nonempty
    cases rejected process member
  · have inside : before.length < state.length := by
      rw [split, length_append, length_cons]
      omega
    have mine : clock before.length = process.vruntime := by
      rw [← clockEq _ inside]
      simp [split]
    refine ⟨before.length, by rw [findMinVruntimeProcess, found]; rfl, inside, ?_, ?_⟩
    · intro j jLt
      rw [mine, ← clockEq j jLt]
      exact isFirst.le (split ▸ getElem_mem jLt) rfl
    · intro j jLt
      have jInside := jLt.trans inside
      rw [mine, ← clockEq j jInside]
      refine isFirst.lt_before _ ?_ rfl
      simp [split, getElem_append_left jLt]

theorem vruntime_concat {next i : Nat} : vruntime processes (past ++ [next]) i =
      if i = next then (vruntime processes past i + charge processes i) % ulongValues
      else vruntime processes past i := by
  rw [vruntime, vruntime, account_concat]
  split
  · rw [Nat.mod_add_mod]
  · rw [Nat.add_zero]

theorem exists_tick (inRange : InRange processes) (nonempty : processes ≠ []) (past : List Nat) :
    ∃ next, tick (after processes past) () = some (after processes (past ++ [next]), next) ∧
      FirstMin processes.length (vruntime processes past) next := by
  have length : (after processes past).length = processes.length := length_mapIdx
  obtain ⟨next, found, isMin⟩ := exists_findMin (vruntime processes past)
    (show after processes past ≠ [] by simpa [after] using nonempty) (by simp [after])
  rw [length] at isMin
  refine ⟨next, ?_, isMin⟩
  have nextLt := isMin.lt
  have atNext : (after processes past)[next]? = some { processes[next] with
      weight := weight processes next, vruntime := vruntime processes past next } := by
    simp [after, nextLt]
  obtain ⟨steps, weightEq, positive, -⟩ := exists_weight inRange nextLt
  have charged : 1 * 1024 % ulongValues / weight processes next = charge processes next := rfl
  rw [tick, found, bind_eq_bind, bind_some, atNext, bind_eq_bind,
    bind_some, updateVruntime, if_neg (by simp only; omega)]
  simp only [charged, bind_some, some.injEq, Prod.mk.injEq, and_true]
  refine ext_getElem (by simp [after]) fun i inside _ => ?_
  by_cases same : i = next
  · subst same
    simp [after, vruntime_concat]
  · simp [after, vruntime_concat, same, Ne.symm same]

theorem exists_simulateCfs (inRange : InRange processes) (nonempty : processes ≠ [])
    (simulationTime : Int) :
    ∃ final ticks, simulateCfs processes simulationTime = some (final, ticks) ∧
      ticks.length = simulationTime.toNat ∧ Scheduled processes ticks := by
  suffices loop : ∀ count, ∃ ticks, run tick (after processes []) (replicate count ()) =
          some (after processes ticks, ticks) ∧
        ticks.length = count ∧ Scheduled processes ticks by
    obtain ⟨ticks, ran, length, scheduled⟩ := loop simulationTime.toNat
    exact ⟨_, ticks, by rw [simulateCfs, initializeWeights_eq inRange]; exact ran, length,
      scheduled⟩
  intro count
  induction count with
  | zero => exact ⟨[], rfl, rfl, .nil⟩
  | succ count ih =>
    obtain ⟨past, ran, length, scheduled⟩ := ih
    obtain ⟨next, ticked, isMin⟩ := exists_tick inRange nonempty past
    refine ⟨past ++ [next], ?_, by simp [length], scheduled.concat isMin⟩
    rw [replicate_succ']
    exact run_concat ran ticked

section

variable (scheduled : Scheduled processes past)
include scheduled

theorem Scheduled.mem :
    ∀ i ∈ past, i ∈ Finset.range processes.length := by
  induction scheduled with
  | nil => exact fun _ member => absurd member not_mem_nil
  | concat _ isMin ih =>
    rw [forall_mem_append, forall_mem_singleton]
    exact ⟨ih, Finset.mem_range.mpr isMin.lt⟩

theorem Scheduled.balanced (inRange : InRange processes) (short : (past.length : Int) ≤ intMax) :
    Balanced (Finset.range processes.length) (charge processes) past := by
  induction scheduled with
  | nil => exact balanced_nil
  | @concat past next scheduled isMin ih =>
    rw [length_append, length_singleton, intMax] at short
    have unwrapped : ∀ i < processes.length,
        vruntime processes past i = account (charge processes) past i := by
      intro i iLt
      refine Nat.mod_eq_of_lt ?_
      have small := Nat.mul_le_mul (count_le_length (a := i) (l := past))
        (charge_le inRange iLt)
      rw [account, ulongValues]
      omega
    refine (ih (by rw [intMax]; omega)).concat fun j jMem => ?_
    have jLt := Finset.mem_range.mp jMem
    rw [← unwrapped next isMin.lt, ← unwrapped j jLt]
    exact isMin.le j jLt

theorem Scheduled.count_le_one
    (inRange : InRange processes) {still : Nat} (inside : still < processes.length)
    (stands : charge processes still = 0) (first : ∀ j < still, charge processes j ≠ 0)
    {other : Nat} (ne : other ≠ still) : past.count other ≤ 1 := by
  induction scheduled with
  | nil => exact Nat.zero_le 1
  | @concat past next scheduled isMin ih =>
    have stillZero : vruntime processes past still = 0 := by
      rw [vruntime, account, stands, Nat.mul_zero, Nat.zero_mod]
    have nextLe : next ≤ still := by
      by_contra later
      have less := isMin.lt_earlier still (by omega)
      omega
    rw [count_append, count_singleton]
    by_cases chosen : next = other
    · subst chosen
      have zero : vruntime processes past next = 0 := by
        have least := isMin.le still inside
        omega
      have chargeNe := first next (by omega)
      have chargeLe := charge_le inRange isMin.lt
      have small := Nat.mul_le_mul ih chargeLe
      rw [vruntime, account, Nat.mod_eq_of_lt (by rw [ulongValues]; omega), Nat.mul_eq_zero] at zero
      rw [beq_self_eq_true, if_pos rfl]
      omega
    · simpa [chosen] using ih

end

end

section

variable {processes : List CFSProcess} {ticks : List Nat} {i j : Nat}

theorem share_of_balanced (iLt : i < processes.length) (jLt : j < processes.length)
    (balanced : Balanced (Finset.range processes.length) (charge processes) ticks)
    (positive : 0 < charge processes i) (weightPos : 0 < weight processes i)
    (same : weight processes i * charge processes i = weight processes j * charge processes j) :
    ticks.count i * weight processes j ≤
      ticks.count j * weight processes i + weight processes j := by
  have ahead := balanced i (Finset.mem_range.mpr iLt) j (Finset.mem_range.mpr jLt)
  refine Nat.le_of_mul_le_mul_left ?_ (Nat.mul_pos weightPos positive)
  calc weight processes i * charge processes i * (ticks.count i * weight processes j)
      = weight processes i * weight processes j * (ticks.count i * charge processes i) := by ring
    _ ≤ weight processes i * weight processes j *
          (ticks.count j * charge processes j + charge processes i) :=
        Nat.mul_le_mul_left _ ahead
    _ = weight processes j * charge processes j * (ticks.count j * weight processes i) +
          weight processes i * charge processes i * weight processes j := by ring
    _ = weight processes i * charge processes i *
          (ticks.count j * weight processes i + weight processes j) := by rw [← same]; ring

section

variable (inRange : InRange processes)
include inRange

theorem hundred_dvd_weight_mul_charge (iLt : i < processes.length) :
    100 ∣ weight processes i * charge processes i := by
  obtain ⟨steps, weightEq, -⟩ := exists_weight inRange iLt
  exact ⟨steps * charge processes i, by rw [weightEq]; ring⟩

theorem max_weight_mul_charges_le (iLt : i < processes.length) (jLt : j < processes.length) :
    max (weight processes i) (weight processes j) * (charge processes i * charge processes j) ≤
      10240 := by
  rcases le_total (weight processes i) (weight processes j) with le | le
  · rw [max_eq_right le, Nat.mul_comm (charge processes i), ← Nat.mul_assoc]
    exact Nat.mul_le_mul (weight_mul_charge_le processes j) (charge_le inRange iLt)
  · rw [max_eq_left le, ← Nat.mul_assoc]
    exact Nat.mul_le_mul (weight_mul_charge_le processes i) (charge_le inRange jLt)

theorem products_le_of_share {busy : Nat} (iLt : i < processes.length)
    (jLt : j < processes.length) (busyLt : busy < processes.length)
    (balanced : Balanced (Finset.range processes.length) (charge processes) ticks)
    (busyPos : 0 < charge processes busy) (many : 211 < ticks.count busy)
    (share : ticks.count i * weight processes j ≤ ticks.count j * weight processes i + max (weight
      processes i) (weight processes j)) :
    weight processes j * charge processes j ≤ weight processes i * charge processes i := by
  by_contra less
  have apart : weight processes i * charge processes i + 100 ≤
      weight processes j * charge processes j := by
    have iDvd := hundred_dvd_weight_mul_charge inRange iLt
    have jDvd := hundred_dvd_weight_mul_charge inRange jLt
    omega
  have iAhead : 211 ≤ account (charge processes) ticks i := by
    have ahead := balanced busy (Finset.mem_range.mpr busyLt) i (Finset.mem_range.mpr iLt)
    have often := Nat.mul_le_mul_right (charge processes busy) (Nat.succ_le_of_lt many)
    rw [account] at ahead
    omega
  have jBehind := balanced j (Finset.mem_range.mpr jLt) i (Finset.mem_range.mpr iLt)
  have jSmall := Nat.mul_le_mul (weight_mul_charge_le processes i) (charge_le inRange jLt)
  have scaled : account (charge processes) ticks i * (weight processes j * charge processes j) ≤
      account (charge processes) ticks j * (weight processes i * charge processes i) + 10240 := by
    have wide := max_weight_mul_charges_le inRange iLt jLt
    have product := Nat.mul_le_mul_right (charge processes i * charge processes j) share
    rw [account, account]
    linarith
  have lower := Nat.mul_le_mul_left (account (charge processes) ticks i) apart
  have upper := Nat.mul_le_mul_right (weight processes i * charge processes i) jBehind
  linarith

theorem charge_pos_of_share (several : 2 ≤ processes.length)
    (scheduled : Scheduled processes ticks) {busy : Nat} (busyLt : busy < processes.length)
    (many : 211 < ticks.count busy) (share : ∀ i < processes.length, ∀ j < processes.length,
      ticks.count i * weight processes j ≤ ticks.count j * weight processes i + max (weight
      processes i) (weight processes j))
    (i : Nat) (iLt : i < processes.length) : 0 < charge processes i := by
  by_contra notPos
  have exists_still : ∃ still, charge processes still = 0 := ⟨i, Nat.eq_zero_of_not_pos notPos⟩
  let still := Nat.find exists_still
  have stillLt : still < processes.length :=
    (Nat.find_min' exists_still (Nat.eq_zero_of_not_pos notPos)).trans_lt iLt
  have others : ∀ {other}, other ≠ still → ticks.count other ≤ 1 := fun ne =>
    scheduled.count_le_one inRange stillLt (Nat.find_spec exists_still)
      (fun j lt => Nat.find_min exists_still lt) ne
  obtain ⟨other, otherLt, ne⟩ : ∃ other < processes.length, other ≠ still := by
    by_cases first : still = 0
    · exact ⟨1, by omega, by omega⟩
    · exact ⟨0, by omega, by omega⟩
  have once := others ne
  have bounded := share busy busyLt other otherLt
  obtain ⟨steps, weightEq, stepsPos, stepsLe⟩ := exists_weight inRange busyLt
  obtain ⟨otherSteps, otherEq, otherPos, otherLe⟩ := exists_weight inRange otherLt
  have atMost := Nat.mul_le_mul_right (weight processes busy) once
  have atLeast := Nat.mul_le_mul_right (weight processes other) (Nat.succ_le_of_lt many)
  omega

end

section

variable (scheduled : Scheduled processes ticks) (inRange : InRange processes)
include scheduled inRange

theorem Scheduled.share (short : (ticks.length : Int) ≤ intMax)
    (condition : processes.length ≤ 1 ∨ (∀ i < processes.length, 0 < charge processes i) ∧
      ∀ i < processes.length, ∀ j < processes.length,
      weight processes i * charge processes i = weight processes j * charge processes j)
    (iLt : i < processes.length) (jLt : j < processes.length) :
    ticks.count i * weight processes j ≤
      ticks.count j * weight processes i + weight processes j := by
  rcases condition with single | ⟨positive, same⟩
  · obtain rfl : i = j := by omega
    omega
  · obtain ⟨steps, weightEq, stepsPos, -⟩ := exists_weight inRange iLt
    exact share_of_balanced iLt jLt (scheduled.balanced inRange short) (positive i iLt) (by omega)
      (same i iLt j jLt)

theorem Scheduled.count_pos (long : processes.length < ticks.length)
    (share : ∀ {i j}, i < processes.length → j < processes.length →
      ticks.count i * weight processes j ≤ ticks.count j * weight processes i + weight processes j)
    (iLt : i < processes.length) : 0 < ticks.count i := by
  obtain ⟨busy, busyMem, many⟩ := exists_bound_lt_count 1 scheduled.mem
    (by rwa [card_range, Nat.one_mul])
  by_contra never
  have bounded := share (Finset.mem_range.mp busyMem) iLt
  rw [Nat.eq_zero_of_not_pos never, Nat.zero_mul, Nat.zero_add] at bounded
  obtain ⟨steps, weightEq, stepsPos, -⟩ := exists_weight inRange iLt
  have twice := Nat.mul_le_mul_right (weight processes i) (Nat.succ_le_of_lt many)
  omega

theorem Scheduled.exact_of_share (several : 2 ≤ processes.length)
    (short : (ticks.length : Int) ≤ intMax) (long : 211 * processes.length < ticks.length)
    (share : ∀ i < processes.length, ∀ j < processes.length,
      ticks.count i * weight processes j ≤ ticks.count j * weight processes i + max (weight
      processes i) (weight processes j)) :
    (∀ i < processes.length, 0 < charge processes i) ∧
      ∀ i < processes.length, ∀ j < processes.length,
        weight processes i * charge processes i = weight processes j * charge processes j := by
  obtain ⟨busy, busyMem, many⟩ := exists_bound_lt_count 211 scheduled.mem
    (by rwa [card_range])
  rw [Finset.mem_range] at busyMem
  have positive := charge_pos_of_share inRange several scheduled busyMem many share
  have le : ∀ i < processes.length, ∀ j < processes.length,
      weight processes j * charge processes j ≤ weight processes i * charge processes i :=
    fun i iLt j jLt => products_le_of_share inRange iLt jLt busyMem
      (scheduled.balanced inRange short) (positive busy busyMem) many (share i iLt j jLt)
  exact ⟨positive, fun i iLt j jLt => le_antisymm (le j jLt i iLt) (le i iLt j jLt)⟩

end

end

/-- Ticks are shared by weight exactly if the charges are, for up to ten million processes. -/
theorem proportional_share_iff_exact_charges (processes : List CFSProcess)
    (nonempty : processes ≠ []) (inRange : InRange processes) :
    (processes.length ≤ 1 ∨ ExactCharges processes → ∀ simulationTime ≤ intMax, ∃ final ticks,
        simulateCfs processes simulationTime = some (final, ticks) ∧
          ProportionalShare processes ticks ∧
          (processes.length < simulationTime → ∀ i < processes.length, 0 < ticks.count i)) ∧
    (processes.length ≤ 10000000 → (∀ simulationTime ≤ intMax, ∃ final ticks,
        simulateCfs processes simulationTime = some (final, ticks) ∧
          ProportionalShare processes ticks) → processes.length ≤ 1 ∨ ExactCharges processes) := by
  rw [exactCharges_iff inRange]
  constructor
  · intro condition simulationTime timeLe
    obtain ⟨final, ticks, simulated, length, scheduled⟩ :=
      exists_simulateCfs inRange nonempty simulationTime
    have short : (ticks.length : Int) ≤ intMax := by
      rw [intMax] at timeLe ⊢
      omega
    refine ⟨final, ticks, simulated, (proportionalShare_iff inRange).mpr fun i iLt j jLt => ?_,
      fun long i iLt => ?_⟩
    · exact (scheduled.share inRange short condition iLt jLt).trans
        (Nat.add_le_add_left (le_max_right _ _) _)
    · exact scheduled.count_pos inRange (by omega) (scheduled.share inRange short condition) iLt
  · intro few shares
    by_cases single : processes.length ≤ 1
    · exact .inl single
    obtain ⟨final, ticks, simulated, share⟩ := shares (211 * processes.length + 1)
      (by rw [intMax]; omega)
    obtain ⟨_, _, simulatedToo, length, scheduled⟩ :=
      exists_simulateCfs inRange nonempty (211 * processes.length + 1)
    obtain ⟨-, rfl⟩ := Prod.mk.inj (some.inj (simulated.symm.trans simulatedToo))
    exact .inr (scheduled.exact_of_share inRange (by omega) (by rw [length, intMax]; omega)
      (by omega) ((proportionalShare_iff inRange).mp share))

theorem nice_10_and_15_share_proportionally :
    ∃ final ticks, simulateCfs [⟨10, 0, 0⟩, ⟨15, 0, 0⟩] 15 = some (final, ticks) ∧
      ProportionalShare [⟨10, 0, 0⟩, ⟨15, 0, 0⟩] ticks ∧ ∀ i < 2, 0 < ticks.count i := by
  have exactCharges : ExactCharges [⟨10, 0, 0⟩, ⟨15, 0, 0⟩] := by
    have first : calculateWeight 10 = some 1000 := rfl
    have second : calculateWeight 15 = some 500 := rfl
    simp [ExactCharges, first, second]
  obtain ⟨final, ticks, simulated, share, runs⟩ :=
    (proportional_share_iff_exact_charges [⟨10, 0, 0⟩, ⟨15, 0, 0⟩] (by simp)
      (by simp [InRange, maxNice])).1 (.inr exactCharges) 15 (by decide)
  exact ⟨final, ticks, simulated, share, runs (by decide)⟩

def mainProcesses : List CFSProcess :=
  [⟨0, 0, 0⟩, ⟨-10, 0, 0⟩, ⟨10, 0, 0⟩]

theorem main_processes_not_proportional :
    ∃ final, simulateCfs mainProcesses 15 = some (final, replicate 15 0) ∧
      ¬ ProportionalShare mainProcesses (replicate 15 0) := by
  refine ⟨_, rfl, fun share => ?_⟩
  have bounded := share 0 1 _ _ 2000 3000 rfl rfl rfl rfl
  exact absurd bounded (by decide)

end BitsAndBytes.CompletelyFair
