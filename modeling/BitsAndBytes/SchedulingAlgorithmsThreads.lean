import BitsAndBytes.LeastFirst
import BitsAndBytes.OperationRuns
import BitsAndBytes.SignedInt

/-! # The thread scheduler of `schedulingAlgorithmMemoryController.c` -/

namespace BitsAndBytes.SchedulingAlgorithms

open LeastFirst OperationRuns SignedInt List Option Function

def memoryIntensityThreshold : Int := 10

structure Thread where
  mrpki : Int
  priority : Int
  requestsServed : Int
deriving DecidableEq, Repr

def classifyThreads (threads : Nat → Thread) : Nat → Thread := fun i =>
  { threads i with priority := if (threads i).mrpki ≥ memoryIntensityThreshold then 1 else 0 }

def adaptSchedulingPolicy (threads : Nat → Thread) : Nat → Thread := fun i =>
  if (threads i).priority = 1 then
    { threads i with priority := (threads i).priority + 1 }
  else
    threads i

def threadAt (numThreads : Nat) (threads : Nat → Thread) (index : Int) : Option Thread :=
  if 0 ≤ index ∧ index < numThreads then some (threads index.toNat) else none

def consider (numThreads : Nat) (threads : Nat → Thread) (best : Int × Int) (i : Nat) :
    Option (Int × Int) :=
  if (threads i).priority > best.1 then
    some ((threads i).priority, i)
  else if (threads i).priority = best.1 then
    (threadAt numThreads threads best.2).map fun oldest =>
      if (threads i).requestsServed < oldest.requestsServed then (best.1, i) else best
  else
    some best

def select (numThreads : Nat) (threads : Nat → Thread) : Nat → Option (Int × Int)
  | 0 => some (-1, -1)
  | count + 1 =>
    (select numThreads threads count).bind fun best =>
      consider numThreads threads best count

def adaptiveScheduleRequest (numThreads : Nat) (threads : Nat → Thread) :
    Option ((Nat → Thread) × Int) := do
  let (_, oldestThread) ← select numThreads threads numThreads
  let oldest ← threadAt numThreads threads oldestThread
  let requestsServed ← checked (oldest.requestsServed + 1)
  some (update threads oldestThread.toNat { oldest with requestsServed }, oldestThread)

def scheduleRequests (numThreads count : Nat) (threads : Nat → Thread) :
    Option ((Nat → Thread) × List Int) :=
  run (fun threads (_ : Unit) => adaptiveScheduleRequest numThreads threads) threads
    (List.replicate count ())

def highest (numThreads : Nat) (threads : Nat → Thread) : Finset Nat :=
  {i ∈ Finset.range numThreads | ∀ j < numThreads, (threads j).priority ≤ (threads i).priority}

/-- Only threads of the highest priority are served, and in turns. -/
structure Fair (numThreads : Nat) (threads last : Nat → Thread) (served : List Int) : Prop where
  onlyHighest : ∀ index ∈ served, ∃ i ∈ highest numThreads threads, index = i
  others : ∀ i ∉ highest numThreads threads, last i = threads i
  balanced : ∀ i ∈ highest numThreads threads, ∀ j ∈ highest numThreads threads,
    (last i).requestsServed ≤ (last j).requestsServed + 1

variable {k calls : Nat}

section

variable {numThreads i count : Nat} {threads : Nat → Thread}

theorem mem_highest : i ∈ highest numThreads threads ↔
    i < numThreads ∧ ∀ j < numThreads, (threads j).priority ≤ (threads i).priority := by
  rw [highest, Finset.mem_filter, Finset.mem_range]

theorem threadAt_natCast (inside : i < numThreads) :
    threadAt numThreads threads i = some (threads i) := by
  rw [threadAt, if_pos ⟨Int.natCast_nonneg i, Int.ofNat_lt.mpr inside⟩, Int.toNat_natCast]

/-- A thread of the highest priority that has been served least often. -/
structure First (threads : Nat → Thread) (count k : Nat) : Prop where
  lt : k < count
  priority : ∀ j < count, (threads j).priority ≤ (threads k).priority
  served : ∀ j < count, (threads j).priority = (threads k).priority →
    (threads k).requestsServed ≤ (threads j).requestsServed

theorem First.consider (isFirst : First threads count k) (inside : k < numThreads) :
    ∃ next, SchedulingAlgorithms.consider numThreads threads ((threads k).priority, (k : Int))
        count = some ((threads next).priority, (next : Int)) ∧ First threads (count + 1) next := by
  obtain ⟨lt, priority, served⟩ := isFirst
  unfold SchedulingAlgorithms.consider
  rw [threadAt_natCast inside]
  simp only [map_some]
  split
  · rename_i higher
    refine ⟨count, rfl, Nat.lt_succ_self count, Nat.forall_lt_succ_right.mpr ⟨?_, le_rfl⟩,
      Nat.forall_lt_succ_right.mpr ⟨?_, fun _ => le_rfl⟩⟩
    · intro j before
      exact (priority j before).trans higher.le
    · intro j before same
      have := priority j before
      omega
  · rename_i notHigher
    split
    · rename_i same
      split
      · rename_i fewer
        refine ⟨count, by rw [same], Nat.lt_succ_self count,
          Nat.forall_lt_succ_right.mpr ⟨?_, le_rfl⟩,
          Nat.forall_lt_succ_right.mpr ⟨?_, fun _ => le_rfl⟩⟩
        · intro j before
          exact (priority j before).trans same.ge
        · intro j before sameToo
          exact fewer.le.trans (served j before (sameToo.trans same))
      · rename_i notFewer
        exact ⟨k, rfl, Nat.lt_succ_of_lt lt, Nat.forall_lt_succ_right.mpr ⟨priority, same.le⟩,
          Nat.forall_lt_succ_right.mpr ⟨served, fun _ => not_lt.mp notFewer⟩⟩
    · rename_i different
      exact ⟨k, rfl, Nat.lt_succ_of_lt lt,
        Nat.forall_lt_succ_right.mpr ⟨priority, not_lt.mp notHigher⟩,
        Nat.forall_lt_succ_right.mpr ⟨served, fun sameToo => absurd sameToo different⟩⟩

theorem exists_select (nonneg : ∀ i < numThreads, 0 ≤ (threads i).priority)
    (countLe : count + 1 ≤ numThreads) :
    ∃ k, select numThreads threads (count + 1) = some ((threads k).priority, (k : Int)) ∧
      First threads (count + 1) k := by
  induction count with
  | zero =>
    have positive := nonneg 0 countLe
    refine ⟨0, ?_, Nat.zero_lt_one, fun j below => ?_, fun j below _ => ?_⟩
    · rw [select, select, bind_some, SchedulingAlgorithms.consider, if_pos (by simp only; omega)]
    · rw [Nat.lt_one_iff.mp below]
    · rw [Nat.lt_one_iff.mp below]
  | succ count ih =>
    obtain ⟨k, selected, isFirst⟩ := ih (by omega)
    have below := isFirst.lt
    obtain ⟨next, considered, nextFirst⟩ := isFirst.consider (show k < numThreads by omega)
    refine ⟨next, ?_, nextFirst⟩
    rw [select, selected, bind_some, considered]

def serveThread (threads : Nat → Thread) (k : Nat) : Nat → Thread :=
  update threads k
    { threads k with requestsServed := (threads k).requestsServed + 1 }

theorem adaptiveScheduleRequest_spec (nonempty : 0 < numThreads)
    (nonneg : ∀ i < numThreads, 0 ≤ (threads i).priority) :
    ∃ k ∈ highest numThreads threads, (∀ j ∈ highest numThreads threads,
        (threads k).requestsServed ≤ (threads j).requestsServed) ∧
      adaptiveScheduleRequest numThreads threads = (checked ((threads k).requestsServed + 1)).map
          fun _ => (serveThread threads k, (k : Int)) := by
  obtain ⟨count, rfl⟩ := Nat.exists_eq_add_of_lt nonempty
  obtain ⟨k, selected, lt, priority, served⟩ := exists_select nonneg le_rfl
  refine ⟨k, mem_highest.mpr ⟨lt, priority⟩, fun j member => ?_, ?_⟩
  · obtain ⟨jLt, jPriority⟩ := mem_highest.mp member
    exact served j jLt (le_antisymm (priority j jLt) (jPriority k lt))
  · simp only [adaptiveScheduleRequest, selected, bind_eq_bind, bind_some,
      threadAt_natCast lt, Int.toNat_natCast, checked]
    split
    · rfl
    · rfl

end

def afterServing (threads : Nat → Thread) (trace : List Nat) : Nat → Thread := fun i =>
  { threads i with requestsServed := (threads i).requestsServed + trace.count i }

structure Traced (numThreads : Nat) (threads : Nat → Thread) (last : Nat → Thread)
    (served : List Int) (trace : List Nat) : Prop where
  served_eq : served = trace.map Nat.cast
  last_eq : last = afterServing threads trace
  onlyHighest : ∀ i ∈ trace, i ∈ highest numThreads threads
  balanced : Balanced (highest numThreads threads) (fun _ => 1) trace
  fits : ∀ i ∈ trace, (afterServing threads trace i).requestsServed ≤ intMax

def share (numThreads : Nat) (threads : Nat → Thread) (calls : Nat) : Nat :=
  (calls + (highest numThreads threads).card - 1) / (highest numThreads threads).card

section

variable {numThreads : Nat} {threads last : Nat → Thread} {common : Int} {served : List Int}
  {trace : List Nat}

theorem serveThread_afterServing (threads : Nat → Thread) (trace : List Nat) (k : Nat) :
    serveThread (afterServing threads trace) k = afterServing threads (trace ++ [k]) := by
  funext i
  unfold serveThread
  by_cases isServed : i = k
  · subst isServed
    simp [afterServing, count_append, Int.add_assoc]
  · rw [update_of_ne isServed]
    simp [afterServing, count_append, Ne.symm isServed]

theorem account_one (trace : List Nat) (i : Nat) : account (fun _ => 1) trace i = trace.count i :=
  Nat.mul_one _

namespace Traced

theorem nil (numThreads : Nat) (threads : Nat → Thread) :
    Traced numThreads threads threads [] [] := by
  refine ⟨rfl, ?_, nofun, balanced_nil, nofun⟩
  funext i
  simp [afterServing]

theorem fair (traced : Traced numThreads threads last served trace)
    (equal : ∀ i < numThreads, (threads i).requestsServed = common) :
    Fair numThreads threads last served := by
  refine ⟨fun index member => ?_, fun i notHighest => ?_, fun i iHighest j jHighest => ?_⟩
  · rw [traced.served_eq] at member
    obtain ⟨i, isServed, rfl⟩ := mem_map.mp member
    exact ⟨i, traced.onlyHighest i isServed, rfl⟩
  · have never : trace.count i = 0 :=
      count_eq_zero.mpr fun isServed => notHighest (traced.onlyHighest i isServed)
    rw [traced.last_eq, afterServing, never, Int.natCast_zero, Int.add_zero]
  · have balanced := traced.balanced i iHighest j jHighest
    simp only [account_one] at balanced
    rw [traced.last_eq]
    simp only [afterServing, equal i (mem_highest.mp iHighest).1,
      equal j (mem_highest.mp jHighest).1]
    omega

end Traced

theorem card_highest_pos (nonempty : 0 < numThreads)
    (nonneg : ∀ i < numThreads, 0 ≤ (threads i).priority) :
    0 < (highest numThreads threads).card := by
  obtain ⟨k, isHighest, -⟩ := adaptiveScheduleRequest_spec nonempty nonneg
  exact Finset.card_pos.mpr ⟨k, isHighest⟩

theorem Traced.share_fits (traced : Traced numThreads threads last served trace)
    (cardPos : 0 < (highest numThreads threads).card)
    (equal : ∀ i < numThreads, (threads i).requestsServed = common)
    (isInt : common ≤ intMax) : common + share numThreads threads trace.length ≤ intMax := by
  have shareLe := Nat.div_mul_le_self
    (trace.length + (highest numThreads threads).card - 1) (highest numThreads threads).card
  rw [← share] at shareLe
  cases shareEq : share numThreads threads trace.length with
  | zero => simpa using isInt
  | succ fewer =>
    rw [shareEq, Nat.succ_mul] at shareLe
    obtain ⟨i, iHighest, often⟩ := exists_bound_lt_count fewer traced.onlyHighest (by omega)
    have fits := traced.fits i (count_pos_iff.mp (by omega))
    simp only [afterServing, equal i (mem_highest.mp iHighest).1] at fits
    omega

theorem Traced.count_lt_share (traced : Traced numThreads threads last served trace)
    (cardPos : 0 < (highest numThreads threads).card) (fewer : trace.length < calls)
    (least : ∀ j ∈ highest numThreads threads, trace.count k ≤ trace.count j) :
    trace.count k < share numThreads threads calls := by
  have ownShare := card_mul_count_le_length traced.onlyHighest least
  rw [share, Nat.lt_iff_add_one_le, Nat.le_div_iff_mul_le cardPos, Nat.succ_mul, Nat.mul_comm]
  omega

variable (nonempty : 0 < numThreads) (nonneg : ∀ i < numThreads, 0 ≤ (threads i).priority)
  (equal : ∀ i < numThreads, (threads i).requestsServed = common)
include nonempty nonneg equal

theorem Traced.call (traced : Traced numThreads threads last served trace) :
    ∃ k ∈ highest numThreads threads,
      (∀ j ∈ highest numThreads threads, trace.count k ≤ trace.count j) ∧
      adaptiveScheduleRequest numThreads last = (checked (common + trace.count k + 1)).map
          fun _ => (afterServing threads (trace ++ [k]), (k : Int)) := by
  have sameNonneg : ∀ i < numThreads, 0 ≤ (afterServing threads trace i).priority := nonneg
  obtain ⟨k, isHighest, least, callEq⟩ := adaptiveScheduleRequest_spec nonempty sameNonneg
  have counts : ∀ i ∈ highest numThreads threads,
      (afterServing threads trace i).requestsServed = common + trace.count i := by
    intro i member
    rw [afterServing, equal i (mem_highest.mp member).1]
  refine ⟨k, isHighest, fun j member => ?_, ?_⟩
  · have le := least j member
    rw [counts k isHighest, counts j member] at le
    omega
  · rw [traced.last_eq, callEq, counts k isHighest, serveThread_afterServing]

theorem Traced.step (traced : Traced numThreads threads last served trace) {next : Nat → Thread}
    {index : Int} (called : adaptiveScheduleRequest numThreads last = some (next, index)) :
    ∃ k, Traced numThreads threads next (served ++ [index]) (trace ++ [k]) := by
  obtain ⟨k, isHighest, least, callEq⟩ := traced.call nonempty nonneg equal
  rw [callEq, map_eq_some_iff] at called
  obtain ⟨value, isValue, same⟩ := called
  cases same
  obtain ⟨-, -, valueLe⟩ := checked_eq_some_iff.mp isValue
  refine ⟨k, ?_, rfl, ?_, ?_, ?_⟩
  · rw [traced.served_eq, map_append, map_singleton]
  · exact forall_mem_append.mpr ⟨traced.onlyHighest, forall_mem_singleton.mpr isHighest⟩
  · apply traced.balanced.concat
    intro j member
    rw [account_one, account_one]
    exact least j member
  · intro i member
    by_cases isServed : i = k
    · subst isServed
      simp only [afterServing, equal i (mem_highest.mp isHighest).1, count_append,
        count_singleton_self]
      omega
    · have before : i ∈ trace := by simpa [isServed] using member
      have fits := traced.fits i before
      simpa [afterServing, count_append, Ne.symm isServed] using fits

theorem exists_traced (called : scheduleRequests numThreads calls threads = some (last, served)) :
    ∃ trace, Traced numThreads threads last served trace ∧ trace.length = calls := by
  obtain ⟨trace, traced⟩ : ∃ trace, Traced numThreads threads last served trace :=
    run_results (fun last served => ∃ trace, Traced numThreads threads last served trace)
      (fun {_ _ _ _ _} ⟨trace, traced⟩ stepEq => by
        obtain ⟨k, next⟩ := traced.step nonempty nonneg equal stepEq
        exact ⟨_, next⟩)
      called ⟨[], Traced.nil numThreads threads⟩
  refine ⟨trace, traced, ?_⟩
  have length := length_of_run called
  rw [length_replicate, traced.served_eq, length_map] at length
  exact length.symm

theorem exists_scheduleRequests (isInt : intMin ≤ common) {made : Nat}
    (fits : common + share numThreads threads calls ≤ intMax) (madeLe : made ≤ calls) :
    ∃ last served, scheduleRequests numThreads made threads = some (last, served) := by
  induction made with
  | zero => exact ⟨threads, [], rfl⟩
  | succ made ih =>
    obtain ⟨last, served, called⟩ := ih (by omega)
    obtain ⟨trace, traced, length⟩ := exists_traced nonempty nonneg equal called
    obtain ⟨k, -, least, callEq⟩ := traced.call nonempty nonneg equal
    have few := traced.count_lt_share (card_highest_pos nonempty nonneg)
      (show trace.length < calls by omega) least
    have value : checked (common + trace.count k + 1) = some (common + trace.count k + 1) :=
      checked_eq_some_iff.mpr ⟨rfl, by omega, by omega⟩
    rw [value, map_some] at callEq
    rw [scheduleRequests, replicate_succ']
    exact ⟨_, _, run_concat called callEq⟩

end

/-- Services of the highest priority differ by at most one exactly if the counts fit. -/
theorem fair_iff_share_fits {numThreads : Nat} {threads : Nat → Thread} (common : Int)
    (nonempty : 0 < numThreads) (nonneg : ∀ i < numThreads, 0 ≤ (threads i).priority)
    (equal : ∀ i < numThreads, (threads i).requestsServed = common)
    (isInt : intMin ≤ common ∧ common ≤ intMax) (calls : Nat) :
    (∀ made ≤ calls, ∃ last served, scheduleRequests numThreads made threads = some (last, served) ∧
          Fair numThreads threads last served) ↔
      common + share numThreads threads calls ≤ intMax := by
  constructor
  · intro always
    obtain ⟨last, served, called, -⟩ := always calls le_rfl
    obtain ⟨trace, traced, rfl⟩ := exists_traced nonempty nonneg equal called
    exact traced.share_fits (card_highest_pos nonempty nonneg) equal isInt.2
  · intro fits made madeLe
    obtain ⟨last, served, called⟩ :=
      exists_scheduleRequests nonempty nonneg equal isInt.1 fits madeLe
    obtain ⟨trace, traced, -⟩ := exists_traced nonempty nonneg equal called
    exact ⟨last, served, called, traced.fair equal⟩

theorem fair_of_four_threads :
    share 4 (adaptSchedulingPolicy (classifyThreads fun i => ⟨6 * i, 0, 0⟩)) 1000 = 500 ∧
      ∀ made ≤ 1000, ∃ last served, scheduleRequests 4 made
            (adaptSchedulingPolicy (classifyThreads fun i => ⟨6 * i, 0, 0⟩)) =
          some (last, served) ∧
        Fair 4 (adaptSchedulingPolicy (classifyThreads fun i => ⟨6 * i, 0, 0⟩)) last served := by
  refine ⟨by decide, ?_⟩
  refine (fair_iff_share_fits 0 (by decide) (by decide) (by decide) (by decide) 1000).mpr ?_
  decide

theorem count_of_services_overflows :
    scheduleRequests 2 1 (fun _ => ⟨0, 0, 2147483647⟩) = none := by
  rfl

end BitsAndBytes.SchedulingAlgorithms
