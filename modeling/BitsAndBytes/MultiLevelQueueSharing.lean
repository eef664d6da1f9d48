import BitsAndBytes.MultiLevelQueueAccounts

/-! # Time-sharing in `multi_level_queuing.c` -/

namespace BitsAndBytes.MultiLevelQueue

open SignedInt WhileLoop List

/-- Nobody is executed for more than a quantum in a row while others wait. -/
def TimeShared (slices : List Slice) : Prop :=
  ∀ stretch pointer level, stretch <:+: slices →
    (∀ slice ∈ stretch, slice.process = pointer ∧ slice.level = level ∧ slice.waiting) →
    (stretch.length : Int) ≤ quantum level

/-- The process comes to the lowest queue. -/
def ReachesLowest (burst : Int) : Prop :=
  4 ≤ burst ∨ burst ≤ 0

/-- The process uses more than one quantum in the lowest queue. -/
def Overstays (burst : Int) : Prop :=
  8 ≤ burst ∨ burst ≤ 0

/-- No process that overstays is followed by one that reaches the lowest queue. -/
def NoneOverstays (processes : List (Int × Int)) : Prop :=
  processes.Pairwise fun process later => ¬ (Overstays process.2 ∧ ReachesLowest later.2)

def receivedWaiting (pointer level : Nat) (past : List Slice) : Nat :=
  past.countP fun slice => slice.process = pointer && slice.level = level && slice.waiting

/-- While others wait, no process gets more than a quantum on a level. -/
structure Shared (past : List Slice) : Prop where
  after : ∀ pointer level, (receivedWaiting pointer level past : Int) ≤
    max 0 (received pointer past - (quantum level - 1))
  bounded : ∀ pointer level, (receivedWaiting pointer level past : Int) ≤ quantum level

theorem Shared.timeShared {past : List Slice} (shared : Shared past) : TimeShared past := by
  intro stretch pointer level isInfix mine
  refine le_trans ?_ (shared.bounded pointer level)
  have all : stretch.countP (fun slice => slice.process = pointer && slice.level = level &&
      slice.waiting) = stretch.length :=
    countP_eq_length.mpr fun slice member => by simp [mine slice member]
  rw [← all]
  exact_mod_cast isInfix.sublist.countP_le

theorem noneOverstays_iff {processes : List (Int × Int)} :
    NoneOverstays processes ↔ ∀ first second, first < second → second < processes.length →
      ¬ (Overstays (burstTime processes first) ∧ ReachesLowest (burstTime processes second)) := by
  rw [NoneOverstays, pairwise_iff_getElem]
  constructor
  · intro pairs first second before inside
    rw [burstTime_eq (before.trans inside), burstTime_eq inside]
    exact pairs first second _ _ before
  · intro pairs first second firstInside inside before
    rw [← burstTime_eq firstInside, ← burstTime_eq inside]
    exact pairs first second before inside

section

variable {count : Nat} {burst : Nat → Int} {past : List Slice} {view next : View}
  {slice : Slice} {pointer i : Nat} {rest : List Nat} {process : MLFQProcess}

theorem Sound.lt_of_mem_rest (sound : Sound count burst past view)
    (front : Front view i pointer rest process) {other : Nat} (member : other ∈ rest) :
    pointer < other := by
  have sorted : (view.queues i).Pairwise (· < ·) := pairwise_lt_range.sublist
    ((queue_sublist_order front.level_lt).trans sound.order)
  rw [front.first] at sorted
  exact (pairwise_cons.mp sorted).1 other member

theorem Accounts.received_lowest {burst : Int} (accounts : Accounts burst past pointer 2 process) :
    (MultiLevelQueue.received pointer past : Int) = 3 + process.quantumUsed := accounts.received

theorem Accounts.reachesLowest {burst : Int} (accounts : Accounts burst past pointer 2 process) :
    ReachesLowest burst := by
  have remaining := accounts.remaining
  have received := accounts.received_lowest
  have usedNonneg := accounts.used_nonneg
  by_cases positive : 1 ≤ burst
  · have := accounts.positive positive
    exact .inl (by omega)
  · exact .inr (by omega)

variable (noneOverstays : ∀ first second, first < second → second < count →
  ¬ (Overstays (burst first) ∧ ReachesLowest (burst second)))
include noneOverstays

theorem Sound.used_lt_quantum (sound : Sound count burst past view)
    (front : Front view i pointer rest process) (waiting : rest ≠ []) :
    process.quantumUsed < quantum i := by
  have accounts := sound.accounts front
  by_cases lowest : i = 2
  · subst lowest
    obtain ⟨other, member⟩ := exists_mem_of_ne_nil rest waiting
    have queued : other ∈ view.queues 2 := front.first ▸ mem_cons_of_mem pointer member
    obtain ⟨_, -, otherAccounts⟩ := sound.queued 2 front.level_lt other queued
    have short : ¬ Overstays (burst pointer) := fun overstays =>
      noneOverstays pointer other (sound.lt_of_mem_rest front member)
        (sound.lt_of_mem (mem_order.mpr ⟨2, front.level_lt, queued⟩))
        ⟨overstays, otherAccounts.reachesLowest⟩
    rw [Overstays, not_or] at short
    have remaining := accounts.remaining
    have received := accounts.received_lowest
    have positive := accounts.positive (by omega)
    change process.quantumUsed < 4
    omega
  · have levelLt : i < 3 := front.level_lt
    exact accounts.used_lt (show i < 2 by omega)

theorem Shared.step (shared : Shared past) (sound : Sound count burst past view)
    (executes : Executes view next slice) : Shared (past ++ [slice]) := by
  obtain ⟨rest, process, front, waiting⟩ := executes.front
  have accounts := sound.accounts front
  have total := accounts.received
  have usedNonneg := accounts.used_nonneg
  have counted : ∀ pointer level, receivedWaiting pointer level (past ++ [slice]) =
      receivedWaiting pointer level past +
        if slice.process = pointer ∧ slice.level = level ∧ slice.waiting then 1 else 0 := by
    intro pointer level
    simp [receivedWaiting, countP_singleton, and_assoc]
  have receivedLe : ∀ pointer, received pointer past ≤ received pointer (past ++ [slice]) :=
    fun pointer => (sublist_append_left past [slice]).countP_le
  refine ⟨fun pointer level => ?_, fun pointer level => ?_⟩
  · have before := shared.after pointer level
    have le := receivedLe pointer
    rw [counted]
    split
    · rename_i mine
      obtain ⟨rfl, rfl, -⟩ := mine
      rw [received_append_self rfl]
      omega
    · omega
  · have before := shared.bounded pointer level
    rw [counted]
    split
    · rename_i mine
      obtain ⟨rfl, rfl, waits⟩ := mine
      have after := shared.after slice.process slice.level
      have used := sound.used_lt_quantum noneOverstays front (by simpa [waits] using waiting)
      omega
    · omega

theorem BetweenCalls.timeShared {mlfq state : MLFQ} {calls : List (List Slice)}
    (between : BetweenCalls count burst mlfq [])
    (iterates : Iterates processesRemaining executeTimeSlice mlfq calls state) :
    TimeShared calls.flatten := by
  have shared : BetweenCalls count burst state calls ∧ Shared calls.flatten := by
    refine iterates.invariant
      (fun state past => BetweenCalls count burst state past ∧ Shared past.flatten) ?_
      ⟨between, fun _ _ => le_max_left _ _, fun _ level => Int.le_of_lt (one_le_quantum level)⟩
    rintro state past next slices ⟨between, shared⟩ remaining executed
    obtain ⟨slice, rfl, executes, nextBetween⟩ := between.call remaining executed
    refine ⟨nextBetween, ?_⟩
    rw [flatten_append, flatten_singleton]
    exact shared.step noneOverstays between.sound executes
  exact shared.2.timeShared

end

def atLowestFront (pointer : Nat) (mlfq : MLFQ) : Bool :=
  (mlfq.view.queues 0).isEmpty && (mlfq.view.queues 1).isEmpty &&
    (mlfq.view.queues 2).head? = some pointer

def needBefore (burst : Nat → Int) (first pointer : Nat) : Nat :=
  if pointer < first ∨ 1 ≤ burst pointer ∧ burst pointer ≤ 3 then (burst pointer).toNat else 3

section

variable {count : Nat} {burst : Nat → Int} {past : List Slice} {mlfq : MLFQ}
  {first pointer : Nat} {rest : List Nat} {process : MLFQProcess}

theorem Sound.mem_order_of_received_le (sound : Sound count burst past mlfq.view)
    (pointerLt : pointer < count) (reaches : ReachesLowest (burst pointer))
    (few : received pointer past ≤ 3) : pointer ∈ MultiLevelQueue.order mlfq.view.queues := by
  by_contra absent
  obtain ⟨-, all, once⟩ := sound.done pointer pointerLt absent
  have : completions pointer past ≤ received pointer past :=
    countP_mono_left fun slice _ => by simp +contextual
  rcases reaches with long | never <;> omega

theorem ReachesLowest.of_overstays {burst : Int} (overstays : Overstays burst) :
    ReachesLowest burst := overstays.imp (fun long => by omega) id

theorem needBefore_eq_three (notBefore : ¬ pointer < first)
    (reaches : ReachesLowest (burst pointer)) : needBefore burst first pointer = 3 := by
  rw [needBefore, if_neg]
  rw [ReachesLowest] at reaches
  omega

theorem Front.le_of_mem_order (sound : Sound count burst past mlfq.view)
    (front : Front mlfq.view 2 pointer rest process) {other : Nat}
    (member : other ∈ order mlfq.view.queues) : pointer ≤ other := by
  rw [order, front.earlier 0 (by decide), front.earlier 1 (by decide), append_nil,
    append_nil, front.first] at member
  rcases mem_cons.mp member with rfl | behind
  · exact le_rfl
  · exact (sound.lt_of_mem_rest front behind).le

theorem Front.atLowestFront (front : Front mlfq.view 2 pointer rest process) :
    atLowestFront pointer mlfq := by
  simp [MultiLevelQueue.atLowestFront, front.earlier 0 (by decide), front.earlier 1 (by decide),
    front.first]

theorem Accounts.received_upper {burst : Int} {level : Nat} (upper : level < 2)
    (accounts : Accounts burst past pointer level process) :
    MultiLevelQueue.received pointer past < 3 := by
  have received := accounts.received
  have used := accounts.used_lt upper
  interval_cases level
  · change process.quantumUsed < 1 at used
    change _ = (1 : Int) - 1 + process.quantumUsed at received
    omega
  · change process.quantumUsed < 2 at used
    change _ = (2 : Int) - 1 + process.quantumUsed at received
    omega

theorem eager_of_first (firstLt : first < count) (overstays : Overstays (burst first))
    (isFirst : ∀ pointer < first, ¬ Overstays (burst pointer))
    (fits : ∀ pointer < count, intMin + 8 ≤ burst pointer ∧ burst pointer ≤ intMax) :
    Eager count burst (needBefore burst first)
      (fun mlfq => processesRemaining mlfq && !atLowestFront first mlfq) := by
  intro mlfq past tested sound within i pointer rest process front
  have accounts := sound.accounts front
  have pointerLt := sound.lt_of_mem (Sound.mem_order_of_front front)
  have inRange := fits pointer pointerLt
  have remaining := accounts.remaining
  have received := accounts.received
  have levelLt : i < 3 := front.level_lt
  have bounds : intMin = -2147483648 ∧ intMax = 2147483647 := ⟨rfl, rfl⟩
  have quantumGe := one_le_quantum i
  rw [needBefore]
  by_cases before : pointer < first
  · have short := isFirst pointer before
    rw [Overstays, not_or] at short
    have positive := accounts.positive (by omega)
    rw [if_pos (.inl before)]
    omega
  · have few : MultiLevelQueue.received pointer past < 3 := by
      by_cases lowest : i = 2
      · subst lowest
        have reaches : ReachesLowest (burst first) := .of_overstays overstays
        have firstQueued := sound.mem_order_of_received_le firstLt reaches
          (needBefore_eq_three (lt_irrefl first) reaches ▸ within first firstLt)
        obtain rfl : pointer = first :=
          le_antisymm (front.le_of_mem_order sound firstQueued) (not_lt.mp before)
        have notThere := (Bool.and_eq_true_iff.mp tested).2
        rw [front.atLowestFront] at notThere
        cases notThere
      · exact accounts.received_upper (by omega)
    split
    · rename_i isShort
      have positive := accounts.positive (by omega)
      omega
    · omega

theorem exists_atLowestFront {second : Nat} (few : count ≤ maxProcesses) (firstLt : first < second)
    (secondLt : second < count) (overstays : Overstays (burst first))
    (reaches : ReachesLowest (burst second))
    (isFirst : ∀ pointer < first, ¬ Overstays (burst pointer))
    (fits : ∀ pointer < count, intMin + 8 ≤ burst pointer ∧ burst pointer ≤ intMax)
    (between : BetweenCalls count burst mlfq []) :
    ∃ calls state rest process, Iterates processesRemaining executeTimeSlice mlfq calls state ∧
      BetweenCalls count burst state calls ∧ Front state.view 2 first rest process ∧ rest ≠ [] ∧
      received first calls.flatten = 3 := by
  have lt := firstLt.trans secondLt
  obtain ⟨calls, state, ⟨iterates, ended⟩, progress⟩ :=
    exists_ends_of_eager few (fun tested => (Bool.and_eq_true_iff.mp tested).1)
      (eager_of_first lt overstays isFirst fits) between
  have sound := progress.sound
  have firstReaches : ReachesLowest (burst first) := .of_overstays overstays
  have firstFew : received first calls.flatten ≤ 3 :=
    needBefore_eq_three (lt_irrefl first) firstReaches ▸ progress.within first lt
  have secondFew : received second calls.flatten ≤ 3 :=
    needBefore_eq_three firstLt.asymm reaches ▸ progress.within second secondLt
  have firstQueued := sound.mem_order_of_received_le lt firstReaches firstFew
  have secondQueued := sound.mem_order_of_received_le secondLt reaches secondFew
  have remaining : processesRemaining state := by
    by_contra notRemaining
    exact not_mem_order_of_ended (by simpa using notRemaining) firstQueued
  have there : atLowestFront first state := by
    simpa [remaining] using ended
  simp only [atLowestFront, Bool.and_eq_true, List.isEmpty_iff, decide_eq_true_eq] at there
  obtain ⟨⟨top, middle⟩, head⟩ := there
  obtain ⟨rest, lowest⟩ := head?_eq_some_iff.mp head
  obtain ⟨process, allocated, accounts⟩ := sound.queued 2 (by decide) first
    (lowest ▸ mem_cons_self)
  have front : Front state.view 2 first rest process :=
    ⟨by decide, fun j jLt => by interval_cases j; exacts [top, middle], lowest, allocated⟩
  refine ⟨calls, state, rest, process,
    iterates.mono fun tested => (Bool.and_eq_true_iff.mp tested).1, progress.between, front,
    ?_, ?_⟩
  · rintro rfl
    rw [order, top, middle, lowest, append_nil, append_nil, mem_singleton] at secondQueued
    omega
  · have := accounts.received_lowest
    have := accounts.used_nonneg
    omega

theorem Front.unique {view : View} {i j other : Nat} {otherRest : List Nat}
    {otherProcess : MLFQProcess} (front : Front view i pointer rest process)
    (second : Front view j other otherRest otherProcess) :
    i = j ∧ pointer = other ∧ rest = otherRest ∧ process = otherProcess := by
  have levels : i = j := by
    rcases lt_trichotomy i j with before | same | behind
    · have empty := second.earlier i before
      rw [front.first] at empty
      cases empty
    · exact same
    · have empty := front.earlier j behind
      rw [second.first] at empty
      cases empty
  subst levels
  obtain ⟨rfl, rfl⟩ := cons.inj (front.first.symm.trans second.first)
  exact ⟨rfl, rfl, rfl, Option.some.inj (front.allocated.symm.trans second.allocated)⟩

theorem Front.stays {view next : View} {slice : Slice} (front : Front view 2 pointer rest process)
    (executes : Executes view next slice) (unfinished : process.remainingTime ≠ 1) :
    ∃ after, Front next 2 pointer rest after := by
  cases executes with
  | complete other last =>
    obtain ⟨-, -, -, rfl⟩ := front.unique other
    exact absurd last unfinished
  | demote other _ _ notLowest =>
    obtain ⟨rfl, -⟩ := front.unique other
    exact absurd notLowest (by decide)
  | stay other =>
    obtain ⟨rfl, rfl, rfl, rfl⟩ := front.unique other
    exact ⟨_, front.level_lt, front.earlier, front.first, Function.update_self _ _ _⟩

theorem exists_stretch (few : count ≤ maxProcesses)
    (overstays : Overstays (burst first))
    (inRange : intMin + 8 ≤ burst first ∧ burst first ≤ intMax) (waiting : rest ≠ [])
    {calls : List (List Slice)}
    (between : BetweenCalls count burst mlfq calls)
    (front : Front mlfq.view 2 first rest process) {left : Nat} (leftLe : left ≤ 5)
    (receivedEq : received first calls.flatten + left = 8) :
    ∃ more state, Iterates processesRemaining executeTimeSlice mlfq more state ∧
      more.flatten.length = left ∧
      ∀ slice ∈ more.flatten, slice.process = first ∧ slice.level = 2 ∧ slice.waiting := by
  induction left generalizing calls mlfq process with
  | zero => exact ⟨[], mlfq, iterates_nil, rfl, by simp⟩
  | succ left ih =>
    have accounts := between.sound.accounts front
    have remainingEq := accounts.remaining
    have received := accounts.received_lowest
    have bounds : intMin = -2147483648 ∧ intMax = 2147483647 := ⟨rfl, rfl⟩
    have remaining : processesRemaining mlfq := by
      by_contra notRemaining
      exact not_mem_order_of_ended (by simpa using notRemaining) (Sound.mem_order_of_front front)
    obtain ⟨next, slices, executed⟩ := between.sound.exists_slice few remaining fun other => by
      obtain ⟨rfl, rfl, rfl, rfl⟩ := front.unique other
      omega
    obtain ⟨slice, rfl, executes, nextBetween⟩ := between.call remaining executed
    have mine : slice.process = first ∧ slice.level = 2 ∧ slice.waiting := by
      obtain ⟨_, _, other, waits⟩ := executes.front
      obtain ⟨levelEq, pointerEq, rfl, -⟩ := front.unique other
      exact ⟨pointerEq.symm, levelEq.symm, by rw [waits]; simpa using waiting⟩
    have flatten : (calls ++ [[slice]]).flatten = calls.flatten ++ [slice] := by simp
    have unfinished : process.remainingTime ≠ 1 ∨ left = 0 := by
      rw [Overstays] at overstays
      omega
    rcases unfinished with unfinished | rfl
    · obtain ⟨after, nextFront⟩ := front.stays executes unfinished
      obtain ⟨more, state, iterates, length, all⟩ := ih nextBetween nextFront
        (by omega) (by rw [flatten, received_append_self mine.1]; omega)
      refine ⟨[slice] :: more, state, iterates_cons.mpr ⟨next, remaining, executed, iterates⟩,
        by simp [length], ?_⟩
      rw [flatten_cons, forall_mem_append, forall_mem_singleton]
      exact ⟨mine, all⟩
    · exact ⟨[[slice]], next, iterates_cons.mpr ⟨next, remaining, executed, iterates_nil⟩, rfl,
        by simpa using mine⟩

theorem BetweenCalls.not_overstays {second : Nat} (few : count ≤ maxProcesses)
    (fits : ∀ pointer < count, intMin + 8 ≤ burst pointer ∧ burst pointer ≤ intMax)
    (between : BetweenCalls count burst mlfq [])
    (timeShared : ∀ calls state, Iterates processesRemaining executeTimeSlice mlfq calls state →
      TimeShared calls.flatten)
    (before : pointer < second) (secondLt : second < count) :
    ¬ (Overstays (burst pointer) ∧ ReachesLowest (burst second)) := by
  rintro ⟨overstays, reaches⟩
  classical
  have exists_first : ∃ first, Overstays (burst first) := ⟨pointer, overstays⟩
  let first := Nat.find exists_first
  have firstOverstays : Overstays (burst first) := Nat.find_spec exists_first
  have firstLt : first < second := (Nat.find_min' exists_first overstays).trans_lt before
  have inside := firstLt.trans secondLt
  obtain ⟨calls, state, rest, process, iterates, lowestBetween, front, waiting, received⟩ :=
    exists_atLowestFront few firstLt secondLt firstOverstays reaches
      (fun pointer lt => Nat.find_min exists_first lt) fits between
  obtain ⟨more, last, moreIterates, length, all⟩ := exists_stretch few firstOverstays
    (fits first inside) waiting lowestBetween front le_rfl (by rw [received])
  have bounded := timeShared (calls ++ more) last
    (iterates_append.mpr ⟨state, iterates, moreIterates⟩) more.flatten first 2
    (by rw [flatten_append]; exact (suffix_append _ _).isInfix) all
  rw [length] at bounded
  exact absurd bounded (by decide)

end

/-- No process overstays its quantum exactly if none of 8 slices is added before one of 4. -/
theorem time_shared_if_none_overstays (cells : Nat → Nat → Nat) (processes : List (Int × Int))
    {loaded : MLFQ} (added : addProcesses (initMlfq cells) processes = some loaded) :
    (NoneOverstays processes → ∀ calls state,
      Iterates processesRemaining executeTimeSlice loaded calls state → TimeShared calls.flatten) ∧
    ((∀ process ∈ processes, intMin + 8 ≤ process.2 ∧ process.2 ≤ intMax) →
      (∀ calls state, Iterates processesRemaining executeTimeSlice loaded calls state →
        TimeShared calls.flatten) →
      NoneOverstays processes) := by
  have isLoaded : Loaded processes loaded := (loaded_initMlfq cells).addProcesses added
  rw [noneOverstays_iff]
  constructor
  · intro noneOverstays calls state iterates
    exact isLoaded.between.timeShared noneOverstays iterates
  · intro fits timeShared first second before secondLt
    refine isLoaded.between.not_overstays isLoaded.few ?_ timeShared before secondLt
    intro pointer inside
    rw [burstTime_eq inside]
    exact fits _ (getElem_mem inside)

theorem long_process_last_time_shared :
    ∃ loaded, addProcesses (initMlfq fun _ _ => 0) [(3, 2), (2, 4), (1, 8)] = some loaded ∧
      ∀ calls state, Iterates processesRemaining executeTimeSlice loaded calls state →
        TimeShared calls.flatten := by
  obtain ⟨loaded, added⟩ : ∃ loaded,
      addProcesses (initMlfq fun _ _ => 0) [(3, 2), (2, 4), (1, 8)] = some loaded := ⟨_, rfl⟩
  refine ⟨loaded, added, (time_shared_if_none_overstays _ _ added).1 ?_⟩
  simp [NoneOverstays, Overstays, ReachesLowest]

theorem main_processes_not_time_shared :
    ∃ loaded calls state, addProcesses (initMlfq fun _ _ => 0) mainProcesses = some loaded ∧
      Iterates processesRemaining executeTimeSlice loaded calls state ∧
      ¬ TimeShared calls.flatten := by
  refine ⟨_, [[⟨0, 0, true, false⟩], [⟨1, 0, true, false⟩], [⟨2, 0, false, false⟩],
      [⟨0, 1, true, false⟩], [⟨0, 1, true, false⟩], [⟨1, 1, true, false⟩], [⟨1, 1, true, false⟩],
      [⟨2, 1, false, true⟩], [⟨0, 2, true, false⟩], [⟨0, 2, true, false⟩], [⟨0, 2, true, false⟩],
      [⟨0, 2, true, false⟩], [⟨0, 2, true, true⟩]], _, rfl, rfl, fun timeShared => ?_⟩
  have bounded := timeShared (replicate 4 ⟨0, 2, true, false⟩ ++ [⟨0, 2, true, true⟩]) 0 2
    (by decide) (by decide)
  exact absurd bounded (by decide)

end BitsAndBytes.MultiLevelQueue
