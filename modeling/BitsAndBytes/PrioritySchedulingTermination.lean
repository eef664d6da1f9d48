import BitsAndBytes.LeastFirst
import BitsAndBytes.PriorityScheduling
import Mathlib.Algebra.BigOperators.Ring.Finset
import Mathlib.Algebra.Ring.CharZero

/-! # Termination of `priority_schedule_with_aging` -/

namespace BitsAndBytes.PriorityScheduling

open SignedInt WhileLoop Function List Option Finset

structure Arithmetic where
  result : Int → Int
  exact : ∀ value, intMin ≤ value → value ≤ intMax → result value = value

def Arithmetic.store (arithmetic : Arithmetic) (value : Int) : Option Int :=
  some (arithmetic.result value)

def wrapping : Arithmetic where
  result := wrapped
  exact _ := wrapped_eq_self

inductive Works (n : Nat) (aged : Nat → PriorityProcess) (state : State) : State → Int → Prop
  | idle {time : Int} (allDone : ∀ i < n, ¬ 0 < (aged i).remainingTime) :
      Works n aged state ⟨aged, time, state.completed⟩ (-1)
  | executes {k : Nat} {time : Int} (selected : IsSelected n aged k) : Works n aged state
        ⟨update aged k (aged k).execute, time,
          if (aged k).remainingTime = 1 then state.completed + 1 else state.completed⟩ k

section

variable {arithmetic : Arithmetic} {n : Nat} {state : State}

theorem exists_ageProcess (arithmetic : Arithmetic) (process : PriorityProcess) :
    ∃ after, ageProcess arithmetic.store process = some after ∧
      after.remainingTime = process.remainingTime := by
  rw [ageProcess]
  split
  · simp only [Arithmetic.store, bind_eq_bind, bind_some]
    split
    · exact ⟨_, rfl, rfl⟩
    · exact ⟨_, rfl, rfl⟩
  · exact ⟨process, rfl, rfl⟩

theorem exists_ageProcesses (arithmetic : Arithmetic) (n : Nat)
    (processes : Nat → PriorityProcess) :
    ∃ aged, ageProcesses arithmetic.store n processes = some aged ∧
      ∀ i, (aged i).remainingTime = (processes i).remainingTime := by
  induction n with
  | zero => exact ⟨processes, rfl, fun _ => rfl⟩
  | succ n ih =>
    obtain ⟨before, beforeEq, same⟩ := ih
    obtain ⟨after, afterEq, sameAfter⟩ := exists_ageProcess arithmetic (before n)
    refine ⟨update before n after, ?_, fun i => ?_⟩
    · simp only [ageProcesses, beforeEq, afterEq, bind_eq_bind, bind_some]
    · by_cases isLast : i = n
      · subst isLast
        rw [update_self, sameAfter, same]
      · rw [update_of_ne isLast, same]

theorem exists_works (arithmetic : Arithmetic)
    (ints : ∀ i < n, (state.processes i).remainingTime ≤ intMax)
    (counted : 0 ≤ state.completed ∧ state.completed < intMax) :
    ∃ aged next selected, ageProcesses arithmetic.store n state.processes = some aged ∧
      (∀ i, (aged i).remainingTime = (state.processes i).remainingTime) ∧
      scheduleStep arithmetic.store n state = some (next, selected) ∧
      Works n aged state next selected := by
  obtain ⟨aged, agedEq, same⟩ := exists_ageProcesses arithmetic n state.processes
  rcases highest_cases n aged with ⟨nothing, allDone⟩ | ⟨k, isHighest, isSelected⟩
  · refine ⟨aged, ⟨aged, arithmetic.result (state.currentTime + 1), state.completed⟩, -1,
      agedEq, same, ?_, .idle allDone⟩
    simp only [scheduleStep, agedEq, bind_eq_bind, bind_some, Arithmetic.store,
      getHighestPriorityProcess, nothing, if_true]
  · have isProcess : ¬ (k : Int) = -1 := by omega
    have executed : arithmetic.result ((aged k).remainingTime - 1) =
        (aged k).remainingTime - 1 := by
      have notDone := isSelected.notDone
      have isInt := ints k isSelected.lt
      rw [← same] at isInt
      exact arithmetic.exact _ (by unfold intMin; omega) (by omega)
    have completed : arithmetic.result (state.completed + 1) = state.completed + 1 :=
      arithmetic.exact _ (by unfold intMin; omega) (by omega)
    have last : (aged k).remainingTime - 1 = 0 ↔ (aged k).remainingTime = 1 := by omega
    refine ⟨aged, ⟨update aged k (aged k).execute, arithmetic.result (state.currentTime + 1),
      if (aged k).remainingTime = 1 then state.completed + 1 else state.completed⟩, k,
      agedEq, same, ?_, .executes isSelected⟩
    simp only [scheduleStep, agedEq, bind_eq_bind, bind_some, Arithmetic.store,
      getHighestPriorityProcess, isHighest, isProcess, if_false, Int.toNat_natCast, executed,
      completed, last, PriorityProcess.execute]
    split
    · rfl
    · rfl

end

def finished (n : Nat) (initial : Nat → PriorityProcess) (state : State) : Finset Nat :=
  {i ∈ Finset.range n | 0 < (initial i).remainingTime ∧ (state.processes i).remainingTime = 0}

/-- Each process has lost as many units as it was selected. -/
structure Progress (n : Nat) (initial : Nat → PriorityProcess) (state : State)
    (outs : List Int) : Prop where
  remaining_eq : ∀ i < n, (state.processes i).remainingTime =
    (initial i).remainingTime - outs.count (i : Int)
  selected : ∀ i < n, 0 < outs.count (i : Int) → 0 < (initial i).remainingTime
  nonneg : ∀ i < n, 0 < (initial i).remainingTime → 0 ≤ (state.processes i).remainingTime
  completed_eq : state.completed = (finished n initial state).card

section

variable {arithmetic : Arithmetic} {n i k : Nat} {initial aged : Nat → PriorityProcess}
  {state next : State} {outs : List Int} {selected time : Int}

theorem mem_finished : i ∈ finished n initial state ↔
    i < n ∧ 0 < (initial i).remainingTime ∧ (state.processes i).remainingTime = 0 := by
  rw [finished, Finset.mem_filter, Finset.mem_range]

theorem finished_congr
    (same : ∀ i < n, (next.processes i).remainingTime = 0 ↔ (state.processes i).remainingTime = 0) :
    finished n initial next = finished n initial state := by
  ext i
  rw [mem_finished, mem_finished]
  constructor
  · rintro ⟨inside, positive, done⟩
    exact ⟨inside, positive, (same i inside).mp done⟩
  · rintro ⟨inside, positive, done⟩
    exact ⟨inside, positive, (same i inside).mpr done⟩

theorem count_concat_of_ne (outs : List Int) (different : selected ≠ i) :
    (outs ++ [selected]).count (i : Int) = outs.count (i : Int) := by
  simp [different]

theorem progress_start (initial : Nat → PriorityProcess) :
    Progress n initial (start initial) [] := by
  refine ⟨fun i _ => by simp [start], fun i _ => by simp, fun i _ positive => positive.le, ?_⟩
  have none : finished n initial (start initial) = ∅ := by
    ext i
    rw [mem_finished]
    simp only [start, notMem_empty, iff_false]
    omega
  rw [none]
  rfl

namespace Progress

variable (progress : Progress n initial state outs)
include progress

theorem idle (same : ∀ i, (aged i).remainingTime = (state.processes i).remainingTime) :
    Progress n initial ⟨aged, time, state.completed⟩ (outs ++ [-1]) := by
  have count : ∀ i : Nat, (outs ++ [-1]).count (i : Int) = outs.count (i : Int) :=
    fun i => count_concat_of_ne outs (by omega)
  refine ⟨fun i inside => ?_, fun i inside => ?_, fun i inside => ?_, ?_⟩
  · rw [same, count]
    exact progress.remaining_eq i inside
  · rw [count]
    exact progress.selected i inside
  · rw [same]
    exact progress.nonneg i inside
  · rw [finished_congr fun i _ => by rw [same]]
    exact progress.completed_eq

theorem initially_pos (inside : k < n) (notDone : 0 < (state.processes k).remainingTime) :
    0 < (initial k).remainingTime := by
  by_cases chosen : 0 < outs.count (k : Int)
  · exact progress.selected k inside chosen
  · have unchanged := progress.remaining_eq k inside
    omega

theorem executes (same : ∀ i, (aged i).remainingTime = (state.processes i).remainingTime)
    (isSelected : IsSelected n aged k) :
    Progress n initial
      ⟨update aged k (aged k).execute, time,
        if (aged k).remainingTime = 1 then state.completed + 1 else state.completed⟩
      (outs ++ [(k : Int)]) := by
  obtain ⟨inside, notDone, -, -⟩ := isSelected
  have positive : 0 < (initial k).remainingTime := by
    rw [same] at notDone
    exact progress.initially_pos inside notDone
  have own : (update aged k (aged k).execute k).remainingTime =
      (state.processes k).remainingTime - 1 := by
    rw [update_self, PriorityProcess.execute, same]
  have others : ∀ i, i ≠ k → (update aged k (aged k).execute i).remainingTime =
      (state.processes i).remainingTime := by
    intro i different
    rw [update_of_ne different, same]
  rw [same] at notDone ⊢
  refine ⟨fun i iInside => ?_, fun i iInside => ?_, fun i iInside iPositive => ?_, ?_⟩
  · have before := progress.remaining_eq i iInside
    by_cases isSelf : i = k
    · subst isSelf
      rw [own, count_append, count_singleton_self]
      omega
    · rw [others i isSelf, count_concat_of_ne outs (by omega)]
      exact before
  · by_cases isSelf : i = k
    · subst isSelf
      exact fun _ => positive
    · rw [count_concat_of_ne outs (by omega)]
      exact progress.selected i iInside
  · by_cases isSelf : i = k
    · subst isSelf
      rw [own]
      omega
    · rw [others i isSelf]
      exact progress.nonneg i iInside iPositive
  · split
    · rename_i last
      have fresh : k ∉ finished n initial state := by
        rw [mem_finished]
        omega
      have joined : finished n initial ⟨update aged k (aged k).execute, time,
          state.completed + 1⟩ = insert k (finished n initial state) := by
        ext i
        rw [mem_insert, mem_finished, mem_finished]
        by_cases isSelf : i = k
        · subst isSelf
          simp only [own, last, Int.sub_self, inside, positive, true_or, and_self]
        · simp only [others i isSelf, isSelf, false_or]
      rw [joined, card_insert_of_notMem fresh, progress.completed_eq, Int.natCast_succ]
    · rename_i notLast
      have unchanged : finished n initial ⟨update aged k (aged k).execute, time,
          state.completed⟩ = finished n initial state := by
        refine finished_congr fun i _ => ?_
        by_cases isSelf : i = k
        · subst isSelf
          simp only [own]
          omega
        · simp only [others i isSelf]
      rw [unchanged]
      exact progress.completed_eq

theorem works (same : ∀ i, (aged i).remainingTime = (state.processes i).remainingTime)
    (works : Works n aged state next selected) : Progress n initial next (outs ++ [selected]) := by
  cases works with
  | idle => exact progress.idle same
  | executes isSelected => exact progress.executes same isSelected

theorem exists_step (arithmetic : Arithmetic) (few : (n : Int) ≤ intMax)
    (ints : ∀ i < n, (initial i).remainingTime ≤ intMax) (tested : unfinished n state) :
    ∃ aged next selected, ageProcesses arithmetic.store n state.processes = some aged ∧
      (∀ i, (aged i).remainingTime = (state.processes i).remainingTime) ∧
      scheduleStep arithmetic.store n state = some (next, selected) ∧
      Works n aged state next selected := by
  rw [unfinished, decide_eq_true_eq] at tested
  have counted := progress.completed_eq
  refine exists_works arithmetic (fun i inside => ?_) ⟨by omega, by omega⟩
  have remaining := progress.remaining_eq i inside
  have isInt := ints i inside
  omega

theorem stopped (ended : unfinished n state = false) :
    ∀ i < n, 0 < (initial i).remainingTime ∧ (state.processes i).remainingTime = 0 := by
  rw [unfinished, decide_eq_false_iff_not, progress.completed_eq, Int.ofNat_lt, Nat.not_lt] at ended
  have all : finished n initial state = Finset.range n :=
    eq_of_subset_of_card_le (filter_subset _ _) (by rwa [card_range])
  intro i inside
  have member : i ∈ finished n initial state := by rwa [all, Finset.mem_range]
  exact (mem_finished.mp member).2

theorem exists_isSelected (same : ∀ i, (aged i).remainingTime = (state.processes i).remainingTime)
    (positive : ∀ i < n, 0 < (initial i).remainingTime) (tested : unfinished n state)
    (works : Works n aged state next selected) : ∃ k, IsSelected n aged k ∧ selected = k := by
  cases works with
  | executes isSelected => exact ⟨_, isSelected, rfl⟩
  | idle allDone =>
    have all : finished n initial state = Finset.range n := by
      refine filter_true_of_mem fun i member => ?_
      have inside := Finset.mem_range.mp member
      have done := allDone i inside
      have nonneg := progress.nonneg i inside (positive i inside)
      rw [same] at done
      exact ⟨positive i inside, by omega⟩
    rw [unfinished, decide_eq_true_eq, progress.completed_eq, all, card_range] at tested
    exact absurd tested (lt_irrefl _)

end Progress

section

variable (few : (n : Int) ≤ intMax) (ints : ∀ i < n, (initial i).remainingTime ≤ intMax)
include few ints

theorem progress_of_iterates
    (iterates : Iterates (unfinished n) (scheduleStep arithmetic.store n) (start initial) outs
      state) :
    Progress n initial state outs := by
  refine iterates.invariant (Progress n initial) (fun progress tested stepEq => ?_)
    (progress_start initial)
  obtain ⟨aged, next, selected, -, same, stepEq', works⟩ :=
    progress.exists_step arithmetic few ints tested
  obtain ⟨rfl, rfl⟩ := Prod.mk.inj (some.inj (stepEq'.symm.trans stepEq))
  exact progress.works same works

theorem exists_selected (positive : ∀ i < n, 0 < (initial i).remainingTime)
    (iterates : Iterates (unfinished n) (scheduleStep arithmetic.store n) (start initial) outs
      state)
    (tested : unfinished n state)
    (stepEq : scheduleStep arithmetic.store n state = some (next, selected)) :
    ∃ aged k, ageProcesses arithmetic.store n state.processes = some aged ∧
      IsSelected n aged k ∧ selected = k := by
  have progress := progress_of_iterates few ints iterates
  obtain ⟨aged, next, selected, agedEq, same, stepEq', works⟩ :=
    progress.exists_step arithmetic few ints tested
  obtain ⟨rfl, rfl⟩ := Prod.mk.inj (some.inj (stepEq'.symm.trans stepEq))
  obtain ⟨k, isSelected, isIndex⟩ := progress.exists_isSelected same positive tested works
  exact ⟨aged, k, agedEq, isSelected, isIndex⟩

theorem exists_selected_of_split (positive : ∀ i < n, 0 < (initial i).remainingTime)
    {past future : List Int}
    (iterates : Iterates (unfinished n) (scheduleStep arithmetic.store n) (start initial) (past ++
      selected :: future) state) :
    ∃ before aged k, Iterates (unfinished n) (scheduleStep arithmetic.store n)
        (start initial) past before ∧
      ageProcesses arithmetic.store n before.processes = some aged ∧
      IsSelected n aged k ∧ selected = k := by
  obtain ⟨before, iteratesPast, rest⟩ := iterates_append.mp iterates
  obtain ⟨next, tested, stepEq, -⟩ := iterates_cons.mp rest
  obtain ⟨aged, k, agedEq, isSelected, isIndex⟩ :=
    exists_selected few ints positive iteratesPast tested stepEq
  exact ⟨before, aged, k, iteratesPast, agedEq, isSelected, isIndex⟩

end

section

variable (few : (n : Int) ≤ intMax) (ints : ∀ i < n, (initial i).remainingTime ≤ intMax)
  (positive : ∀ i < n, 0 < (initial i).remainingTime)
  (iterates : Iterates (unfinished n) (scheduleStep arithmetic.store n) (start initial) outs state)
include few ints positive iterates

theorem exists_index (member : selected ∈ outs) : ∃ k < n, selected = ((k : Nat) : Int) := by
  obtain ⟨past, future, rfl⟩ := append_of_mem member
  obtain ⟨-, aged, k, -, -, isSelected, isIndex⟩ :=
    exists_selected_of_split few ints positive iterates
  exact ⟨k, isSelected.lt, isIndex⟩

theorem length_eq_sum_count : outs.length = ∑ i ∈ Finset.range n, outs.count (i : Int) := by
  have chosen : ∀ selected ∈ outs, selected ∈ (Finset.range n).map Nat.castEmbedding := by
    intro selected member
    obtain ⟨k, inside, rfl⟩ := exists_index few ints positive iterates member
    rw [Finset.mem_map]
    exact ⟨k, Finset.mem_range.mpr inside, rfl⟩
  rw [← LeastFirst.sum_count_eq_length chosen, sum_map]
  rfl

theorem length_le_sum : outs.length ≤ ∑ i ∈ Finset.range n, (initial i).remainingTime.toNat := by
  have progress := progress_of_iterates few ints iterates
  rw [length_eq_sum_count few ints positive iterates]
  refine Finset.sum_le_sum fun i member => ?_
  have inside := Finset.mem_range.mp member
  have remaining := progress.remaining_eq i inside
  have nonneg := progress.nonneg i inside (positive i inside)
  omega

end

theorem exists_ends_of_positive (arithmetic : Arithmetic) (few : (n : Int) ≤ intMax)
    (ints : ∀ i < n, (initial i).remainingTime ≤ intMax)
    (positive : ∀ i < n, 0 < (initial i).remainingTime) :
    ∃ outs last, Ends (unfinished n) (scheduleStep arithmetic.store n) (start initial)
      outs last := by
  let work := ∑ i ∈ Finset.range n, (initial i).remainingTime.toNat
  have shorter : ∀ {state : State} {past : List Int},
      Iterates (unfinished n) (scheduleStep arithmetic.store n) (start initial) past state →
      unfinished n state →
      ∃ next selected, scheduleStep arithmetic.store n state = some (next, selected) ∧
        Iterates (unfinished n) (scheduleStep arithmetic.store n) (start initial)
          (past ++ [selected]) next ∧ work - (past ++ [selected]).length < work - past.length := by
    intro state past iterates tested
    obtain ⟨aged, next, selected, -, -, stepEq, -⟩ :=
      (progress_of_iterates few ints iterates).exists_step arithmetic few ints tested
    have further := iterates_append.mpr
      ⟨state, iterates, iterates_cons.mpr ⟨next, tested, stepEq, iterates_nil⟩⟩
    refine ⟨next, selected, stepEq, further, ?_⟩
    have bounded : (past ++ [selected]).length ≤ work := length_le_sum few ints positive further
    rw [length_append, length_singleton] at bounded ⊢
    omega
  obtain ⟨outs, last, ends, -⟩ := exists_ends
    (fun state past => Iterates (unfinished n) (scheduleStep arithmetic.store n)
      (start initial) past state) (fun _ past => work - past.length) shorter iterates_nil
  exact ⟨outs, last, ends⟩

end

/-- Every process is selected as often as it has units, and always as the source prescribes. -/
structure Scheduled (arithmetic : Arithmetic) (n : Nat) (processes : Nat → PriorityProcess)
    (outs : List Int) : Prop where
  length_eq : (outs.length : Int) = ∑ i ∈ Finset.range n, (processes i).remainingTime
  never_idle : -1 ∉ outs
  count_eq : ∀ i < n, (outs.count (i : Int) : Int) = (processes i).remainingTime
  selects : ∀ past (selected : Int) future, outs = past ++ selected :: future →
    ∃ before aged k, Iterates (unfinished n) (scheduleStep arithmetic.store n)
        (start processes) past before ∧
      ageProcesses arithmetic.store n before.processes = some aged ∧
      IsSelected n aged k ∧ selected = k

theorem scheduled_of_ends {arithmetic : Arithmetic} {n : Nat}
    {processes : Nat → PriorityProcess} {outs : List Int} {last : State}
    (few : (n : Int) ≤ intMax) (ints : ∀ i < n, (processes i).remainingTime ≤ intMax)
    (ends : Ends (unfinished n) (scheduleStep arithmetic.store n) (start processes) outs last) :
    (∀ i < n, 0 < (processes i).remainingTime) ∧ Scheduled arithmetic n processes outs := by
  obtain ⟨iterates, ended⟩ := ends
  have progress := progress_of_iterates few ints iterates
  have stopped := progress.stopped ended
  have positive : ∀ i < n, 0 < (processes i).remainingTime := fun i inside => (stopped i inside).1
  have count : ∀ i < n, (outs.count (i : Int) : Int) = (processes i).remainingTime := by
    intro i inside
    have remaining := progress.remaining_eq i inside
    have done := (stopped i inside).2
    omega
  refine ⟨positive, ?_, fun member => ?_, count, ?_⟩
  · rw [length_eq_sum_count few ints positive iterates, Nat.cast_sum]
    exact sum_congr rfl fun i member => count i (Finset.mem_range.mp member)
  · obtain ⟨k, -, isIndex⟩ := exists_index few ints positive iterates member
    omega
  · rintro past selected future rfl
    exact exists_selected_of_split few ints positive iterates

/-- The loop ends exactly if all processes have work, after as many steps as units of it. -/
theorem priority_schedule_ends_iff (arithmetic : Arithmetic) {n : Nat}
    {processes : Nat → PriorityProcess} (few : (n : Int) ≤ intMax)
    (ints : ∀ i < n, (processes i).remainingTime ≤ intMax) :
    ((∃ outs last, Ends (unfinished n) (scheduleStep arithmetic.store n) (start processes)
        outs last) ↔ ∀ i < n, 0 < (processes i).remainingTime) ∧
      ∀ outs last, Ends (unfinished n) (scheduleStep arithmetic.store n) (start processes)
        outs last → Scheduled arithmetic n processes outs := by
  refine ⟨⟨?_, exists_ends_of_positive arithmetic few ints⟩, fun outs last ends => ?_⟩
  · rintro ⟨outs, last, ends⟩
    exact (scheduled_of_ends few ints ends).1
  · exact (scheduled_of_ends few ints ends).2

theorem priority_schedule_ends_for_two_processes :
    ∃ outs last, Ends (unfinished 2) (scheduleStep wrapping.store 2) (start twoProcesses)
      outs last ∧ Scheduled wrapping 2 twoProcesses outs := by
  have few : ((2 : Nat) : Int) ≤ intMax := by decide
  have ints : ∀ i < 2, (twoProcesses i).remainingTime ≤ intMax := by decide
  obtain ⟨ends, scheduled⟩ := priority_schedule_ends_iff wrapping few ints
  obtain ⟨outs, last, ended⟩ := ends.mpr (by decide)
  exact ⟨outs, last, ended, scheduled outs last ended⟩

end BitsAndBytes.PriorityScheduling
