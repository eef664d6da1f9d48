import BitsAndBytes.MultiLevelQueue
import BitsAndBytes.WhileLoop
import Mathlib.Algebra.BigOperators.Ring.Finset
import Mathlib.Algebra.Order.BigOperators.Group.Finset
import Mathlib.Tactic.IntervalCases

/-! # Conservation of the processes of `multi_level_queuing.c` -/

namespace BitsAndBytes.MultiLevelQueue

open SignedInt WhileLoop Function List

def order (queues : Nat → List Nat) : List Nat :=
  queues 2 ++ queues 1 ++ queues 0

variable {view : View}

section

variable {queues : Nat → List Nat} {level other pointer : Nat}

theorem mem_order : pointer ∈ order queues ↔ ∃ level < maxQueues, pointer ∈ queues level := by
  simp only [order, mem_append]
  constructor
  · rintro ((found | found) | found)
    · exact ⟨2, by decide, found⟩
    · exact ⟨1, by decide, found⟩
    · exact ⟨0, by decide, found⟩
  · rintro ⟨level, levelLt, found⟩
    rw [maxQueues] at levelLt
    interval_cases level
    · exact .inr found
    · exact .inl (.inr found)
    · exact .inl (.inl found)

theorem level_unique (nodup : (order queues).Nodup) (levelLt : level < maxQueues)
    (otherLt : other < maxQueues) (here : pointer ∈ queues level)
    (there : pointer ∈ queues other) : level = other := by
  obtain ⟨lower, -, disjointTop⟩ := nodup_append.mp nodup
  obtain ⟨-, -, disjointLower⟩ := nodup_append.mp lower
  have two_one := disjointLower pointer
  have two_zero := fun found => disjointTop pointer (mem_append_left _ found)
  have one_zero := fun found => disjointTop pointer (mem_append_right _ found)
  rw [maxQueues] at levelLt otherLt
  interval_cases level <;> interval_cases other
  · rfl
  · exact absurd rfl (one_zero there pointer here)
  · exact absurd rfl (two_zero there pointer here)
  · exact absurd rfl (one_zero here pointer there)
  · rfl
  · exact absurd rfl (two_one there pointer here)
  · exact absurd rfl (two_zero here pointer there)
  · exact absurd rfl (two_one here pointer there)
  · rfl

theorem queue_sublist_order (levelLt : level < maxQueues) :
    (queues level).Sublist (order queues) := by
  rw [maxQueues] at levelLt
  interval_cases level
  · exact sublist_append_right _ _
  · exact (sublist_append_right _ _).trans (sublist_append_left _ _)
  · exact (sublist_append_left _ _).trans (sublist_append_left _ _)

theorem nodup_queue (nodup : (order queues).Nodup) (levelLt : level < maxQueues) :
    (queues level).Nodup := (queue_sublist_order levelLt).nodup nodup

theorem Front.order_split {i : Nat} {rest : List Nat} {process : MLFQProcess}
    (front : Front view i pointer rest process) :
    ∃ before after, order view.queues = before ++ pointer :: after ∧
      order (update view.queues i rest) = before ++ after ∧
      (i < maxQueues - 1 → order (update
          (update view.queues (i + 1) (view.queues (i + 1) ++ [pointer])) i rest) =
        order view.queues) := by
  obtain ⟨levelLt, earlier, first, -⟩ := front
  rw [maxQueues] at levelLt ⊢
  interval_cases i
  · exact ⟨view.queues 2 ++ view.queues 1, rest, by simp [order, first], by simp [order],
      fun _ => by simp [order, first]⟩
  · have top := earlier 0 (by decide)
    exact ⟨view.queues 2, rest, by simp [order, first, top], by simp [order, top],
      fun _ => by simp [order, first, top]⟩
  · have top := earlier 0 (by decide)
    have middle := earlier 1 (by decide)
    exact ⟨[], rest, by simp [order, first, top, middle], by simp [order, top, middle],
      fun isLower => absurd isLower (by decide)⟩

end

def received (pointer : Nat) (past : List Slice) : Nat :=
  past.countP fun slice => slice.process = pointer

def completions (pointer : Nat) (past : List Slice) : Nat :=
  past.countP fun slice => slice.process = pointer && slice.completed

section

variable {pointer : Nat} {past : List Slice} {slice : Slice}

theorem received_append_self (mine : slice.process = pointer) :
    received pointer (past ++ [slice]) = received pointer past + 1 := by
  simp [received, mine]

theorem received_append_other (notMine : slice.process ≠ pointer) :
    received pointer (past ++ [slice]) = received pointer past := by
  simp [received, notMine]

theorem completions_append_self (mine : slice.process = pointer) :
    completions pointer (past ++ [slice]) = completions pointer past + slice.completed.toNat := by
  cases completed : slice.completed <;> simp [completions, mine, completed]

theorem completions_append_other (notMine : slice.process ≠ pointer) :
    completions pointer (past ++ [slice]) = completions pointer past := by
  simp [completions, notMine]

end

/-- What a queued process has received is what `remaining_time` has fallen by. -/
structure Accounts (burst : Int) (past : List Slice) (pointer level : Nat)
    (process : MLFQProcess) : Prop where
  remaining : process.remainingTime = burst - received pointer past
  positive : 1 ≤ burst → 1 ≤ process.remainingTime
  queueLevel : process.queueLevel = level
  received : (received pointer past : Int) = quantum level - 1 + process.quantumUsed
  used_nonneg : 0 ≤ process.quantumUsed
  used_lt : level < maxQueues - 1 → process.quantumUsed < quantum level
  incomplete : completions pointer past = 0

/-- The process is freed and has received its burst time. -/
structure Done (burst : Int) (past : List Slice) (pointer : Nat)
    (found : Option MLFQProcess) : Prop where
  freed : found = none
  received : (received pointer past : Int) = burst
  completed : completions pointer past = 1

/-- Every process is in one queue, in the order of arrival, or done. -/
structure Sound (count : Nat) (burst : Nat → Int) (past : List Slice) (view : View) : Prop where
  slices : ∀ slice ∈ past, slice.process < count
  order : (order view.queues).Sublist (range count)
  queued : ∀ level < maxQueues, ∀ pointer ∈ view.queues level, ∃ process,
    view.memory pointer = some process ∧ Accounts (burst pointer) past pointer level process
  done : ∀ pointer < count, pointer ∉ MultiLevelQueue.order view.queues →
    Done (burst pointer) past pointer (view.memory pointer)

variable {level other : Nat}

theorem quantum_succ (notLowest : level < maxQueues - 1) :
    quantum (level + 1) = 2 * quantum level := by
  rw [maxQueues] at notLowest
  interval_cases level <;> rfl

section

variable {burst : Int} {past : List Slice} {pointer level : Nat} {process : MLFQProcess}
  {slice : Slice}
variable (accounts : Accounts burst past pointer level process)
include accounts

theorem Accounts.append_other (notMine : slice.process ≠ pointer) :
    Accounts burst (past ++ [slice]) pointer level process :=
  { accounts with
    remaining := by rw [received_append_other notMine]; exact accounts.remaining
    received := by rw [received_append_other notMine]; exact accounts.received
    incomplete := by rw [completions_append_other notMine]; exact accounts.incomplete }

theorem Accounts.positive_sub (unfinished : process.remainingTime ≠ 1) (isPositive : 1 ≤ burst) :
    1 ≤ process.remainingTime - 1 := by
  have := accounts.positive isPositive
  omega

theorem Accounts.demote (mine : slice.process = pointer) (incomplete : slice.completed = false)
    (unfinished : process.remainingTime ≠ 1) (used : process.quantumUsed + 1 ≥ quantum level)
    (notLowest : level < maxQueues - 1) :
    Accounts burst (past ++ [slice]) pointer (level + 1) { process with
      remainingTime := process.remainingTime - 1
      queueLevel := process.queueLevel + 1
      quantumUsed := 0 } := by
  have remaining := accounts.remaining
  have received := accounts.received
  have usedLt := accounts.used_lt notLowest
  have next := quantum_succ notLowest
  have quantumPos : 0 < quantum (level + 1) := by
    omega
  have count : MultiLevelQueue.received pointer (past ++ [slice]) =
      MultiLevelQueue.received pointer past + 1 := received_append_self mine
  refine ⟨?_, accounts.positive_sub unfinished, ?_, ?_, le_rfl, fun _ => quantumPos, ?_⟩
  · simp only [count]
    omega
  · simp only [accounts.queueLevel]
    omega
  · simp only [count]
    omega
  · rw [completions_append_self mine, accounts.incomplete, incomplete]
    rfl

theorem Accounts.stay (mine : slice.process = pointer) (incomplete : slice.completed = false)
    (unfinished : process.remainingTime ≠ 1)
    (stays : ¬ (process.quantumUsed + 1 ≥ quantum level ∧ level < maxQueues - 1)) :
    Accounts burst (past ++ [slice]) pointer level { process with
      remainingTime := process.remainingTime - 1
      quantumUsed := process.quantumUsed + 1 } := by
  have remaining := accounts.remaining
  have received := accounts.received
  have usedNonneg := accounts.used_nonneg
  have count : MultiLevelQueue.received pointer (past ++ [slice]) =
      MultiLevelQueue.received pointer past + 1 := received_append_self mine
  refine ⟨?_, accounts.positive_sub unfinished, accounts.queueLevel, ?_, by simp only; omega,
    fun notLowest => ?_, ?_⟩
  · simp only [count]
    omega
  · simp only [count]
    omega
  · by_contra notLess
    exact stays ⟨by simpa using notLess, notLowest⟩
  · rw [completions_append_self mine, accounts.incomplete, incomplete]
    rfl

end

namespace Sound

variable {count : Nat} {burst : Nat → Int} {past : List Slice} {view next : View}
  {slice : Slice} {i pointer : Nat} {rest : List Nat} {process : MLFQProcess}

theorem nodup (sound : Sound count burst past view) : (MultiLevelQueue.order view.queues).Nodup :=
  sound.order.nodup nodup_range

theorem lt_of_mem (sound : Sound count burst past view)
    (member : pointer ∈ MultiLevelQueue.order view.queues) : pointer < count :=
  mem_range.mp (sound.order.subset member)

theorem accounts (sound : Sound count burst past view) (front : Front view i pointer rest process) :
    Accounts (burst pointer) past pointer i process := by
  obtain ⟨found, same, accounts⟩ :=
    sound.queued i front.level_lt pointer (front.first ▸ mem_cons_self)
  rw [front.allocated, Option.some.injEq] at same
  exact same ▸ accounts

theorem mem_order_of_front (front : Front view i pointer rest process) :
    pointer ∈ MultiLevelQueue.order view.queues :=
  mem_order.mpr ⟨i, front.level_lt, front.first ▸ mem_cons_self⟩

section

variable (sound : Sound count burst past view)
include sound

theorem slices_append (front : Front view i pointer rest process) (mine : slice.process = pointer) :
    ∀ other ∈ past ++ [slice], other.process < count := by
  rw [forall_mem_append, forall_mem_singleton, mine]
  exact ⟨sound.slices, sound.lt_of_mem (mem_order_of_front front)⟩

theorem queued_other (levelLt : level < maxQueues) (member : other ∈ view.queues level)
    (mine : slice.process = pointer) (notMine : other ≠ pointer) (change : Option MLFQProcess) :
    ∃ process, update view.memory pointer change other = some process ∧
      Accounts (burst other) (past ++ [slice]) other level process := by
  obtain ⟨process, found, accounts⟩ := sound.queued level levelLt other member
  refine ⟨process, by rwa [update_of_ne notMine], ?_⟩
  exact accounts.append_other (by rw [mine]; exact notMine.symm)

theorem done_other (otherLt : other < count) (absent : other ∉ MultiLevelQueue.order view.queues)
    (mine : slice.process = pointer) (notMine : other ≠ pointer) (change : Option MLFQProcess) :
    Done (burst other) (past ++ [slice]) other (update view.memory pointer change other) := by
  obtain ⟨freed, received, completed⟩ := sound.done other otherLt absent
  have different : slice.process ≠ other := by
    rw [mine]
    exact notMine.symm
  refine ⟨by rwa [update_of_ne notMine], ?_, ?_⟩
  · rwa [received_append_other different]
  · rwa [completions_append_other different]

theorem keep (front : Front view i pointer rest process) {queues : Nat → List Nat}
    {change : MLFQProcess}
    (sameOrder : MultiLevelQueue.order queues = MultiLevelQueue.order view.queues)
    (moved : ∀ other < maxQueues, ∀ found ∈ queues other, found = pointer ∧
      other = level ∨ found ≠ pointer ∧ found ∈ view.queues other) (mine : slice.process = pointer)
    (accounts : Accounts (burst pointer) (past ++ [slice]) pointer level change) :
    Sound count burst (past ++ [slice]) ⟨queues, update view.memory pointer (some change)⟩ := by
  refine ⟨sound.slices_append front mine, sameOrder ▸ sound.order, ?_, ?_⟩
  · intro other otherLt found member
    rcases moved other otherLt found member with ⟨rfl, rfl⟩ | ⟨notMine, before⟩
    · exact ⟨change, update_self _ _ _, accounts⟩
    · exact sound.queued_other otherLt before mine notMine _
  · intro other otherLt absent
    rw [sameOrder] at absent
    refine sound.done_other otherLt absent mine ?_ _
    rintro rfl
    exact absent (mem_order_of_front front)

theorem complete (front : Front view i pointer rest process) (last : process.remainingTime = 1)
    (mine : slice.process = pointer) (completed : slice.completed) :
    Sound count burst (past ++ [slice])
      ⟨update view.queues i rest, update view.memory pointer none⟩ := by
  obtain ⟨before, after, orderEq, restEq, -⟩ := front.order_split
  have accounts := sound.accounts front
  have nodup := sound.nodup
  rw [orderEq] at nodup
  have gone : pointer ∉ before ++ after := (nodup_middle.mp nodup).notMem
  have member : ∀ other, other ≠ pointer →
      (other ∈ before ++ after ↔ other ∈ MultiLevelQueue.order view.queues) := by
    intro other different
    rw [orderEq]
    simp [different]
  refine ⟨sound.slices_append front mine, ?_, ?_, ?_⟩
  · rw [restEq]
    refine List.Sublist.trans ?_ sound.order
    rw [orderEq]
    exact (sublist_cons_self pointer after).append_left before
  · intro level levelLt other (found : other ∈ update view.queues i rest level)
    have notMine : other ≠ pointer := by
      rintro rfl
      exact gone (restEq ▸ mem_order.mpr ⟨level, levelLt, found⟩)
    refine sound.queued_other levelLt ?_ mine notMine none
    by_cases here : level = i
    · subst here
      rw [update_self] at found
      rw [front.first]
      exact mem_cons_of_mem pointer found
    · rwa [update_of_ne here] at found
  · intro other otherLt absent
    rw [restEq] at absent
    by_cases same : other = pointer
    · subst same
      have remaining := accounts.remaining
      refine ⟨update_self _ _ _, ?_, ?_⟩
      · rw [received_append_self mine]
        omega
      · rw [completions_append_self mine, accounts.incomplete, completed]
        rfl
    · exact sound.done_other otherLt (mt (member other same).mpr absent) mine same none

theorem mem_demote (front : Front view i pointer rest process) {found : Nat}
    (levelLt : level < maxQueues)
    (member : found ∈ update (update view.queues (i + 1) (view.queues (i + 1) ++ [pointer])) i rest
      level) : found = pointer ∧ level = i + 1 ∨ found ≠ pointer ∧ found ∈ view.queues level := by
  have first : pointer ∈ view.queues i := front.first ▸ mem_cons_self
  have elsewhere : ∀ {level}, level < maxQueues → level ≠ i → pointer ∉ view.queues level :=
    fun levelLt other here => other (level_unique sound.nodup levelLt front.level_lt here first)
  by_cases here : level = i
  · subst here
    rw [update_self] at member
    have nodup := nodup_queue sound.nodup levelLt
    rw [front.first] at nodup ⊢
    refine .inr ⟨?_, mem_cons_of_mem pointer member⟩
    rintro rfl
    exact (nodup_cons.mp nodup).1 member
  · rw [update_of_ne here] at member
    by_cases next : level = i + 1
    · subst next
      rw [update_self, mem_append, mem_singleton] at member
      rcases member with before | mine
      · exact .inr ⟨fun mine => elsewhere levelLt here (mine ▸ before), before⟩
      · exact .inl ⟨mine, rfl⟩
    · rw [update_of_ne next] at member
      exact .inr ⟨fun mine => elsewhere levelLt here (mine ▸ member), member⟩

theorem step (executes : Executes view next slice) : Sound count burst (past ++ [slice]) next := by
  cases executes with
  | complete front last => exact sound.complete front last rfl rfl
  | @demote i pointer rest process front unfinished used notLowest =>
    obtain ⟨-, -, -, -, sameOrder⟩ := front.order_split
    refine sound.keep front (sameOrder notLowest) ?_ rfl
      ((sound.accounts front).demote rfl rfl unfinished used notLowest)
    exact fun other otherLt found => sound.mem_demote front otherLt
  | @stay i pointer rest process front unfinished stays =>
    refine sound.keep front rfl ?_ rfl ((sound.accounts front).stay rfl rfl unfinished stays)
    intro other otherLt found member
    by_cases same : found = pointer
    · subst same
      exact .inl ⟨rfl, level_unique sound.nodup otherLt front.level_lt member
        (front.first ▸ mem_cons_self)⟩
    · exact .inr ⟨same, member⟩

theorem length_next_lt (front : Front view i pointer rest process) (notLowest : i < maxQueues - 1) :
    (view.queues (i + 1)).length < count := by
  have total : (MultiLevelQueue.order view.queues).length ≤ count := by
    simpa using sound.order.length_le
  have mine : 0 < (view.queues i).length := by simp [front.first]
  simp only [MultiLevelQueue.order, length_append] at total
  rw [maxQueues] at notLowest
  interval_cases i <;> simp only [zero_add, Nat.reduceAdd] <;> omega

end

theorem exists_slice {mlfq : MLFQ} (sound : Sound count burst past mlfq.view)
    (few : count ≤ maxProcesses) (remaining : processesRemaining mlfq)
    (safe : ∀ {i pointer rest process}, Front mlfq.view i pointer rest process →
      intMin < process.remainingTime ∧ process.remainingTime ≤ intMax ∧
        process.quantumUsed < intMax) :
    ∃ next slices, executeTimeSlice mlfq = some (next, slices) := by
  refine exists_executeTimeSlice remaining (fun {i pointer rest process} front => ?_)
    fun level levelLt pointer member => ?_
  · have accounts := sound.accounts front
    obtain ⟨low, high, usedLt⟩ := safe front
    exact ⟨low, high, accounts.used_nonneg, usedLt, accounts.queueLevel,
      fun notLowest => (sound.length_next_lt front notLowest).trans_le few⟩
  · obtain ⟨process, found, -⟩ := sound.queued level levelLt pointer member
    exact ⟨process, found⟩

theorem length_eq_sum (sound : Sound count burst past view) :
    past.length = ∑ pointer ∈ Finset.range count, received pointer past := by
  have slices := sound.slices
  clear sound
  induction past with
  | nil => simp [received]
  | cons slice past ih =>
    rw [forall_mem_cons] at slices
    have each : ∀ pointer, received pointer (slice :: past) =
        received pointer past + if slice.process = pointer then 1 else 0 := by
      intro pointer
      simp [received, countP_cons]
    simp only [each, Finset.sum_add_distrib, ← ih slices.2]
    simp [slices.1]

end Sound

/-- What holds between any two calls of `execute_time_slice`. -/
structure BetweenCalls (count : Nat) (burst : Nat → Int) (mlfq : MLFQ)
    (calls : List (List Slice)) : Prop where
  quanta : Quanta mlfq
  sound : Sound count burst calls.flatten mlfq.view
  single : calls.length = calls.flatten.length

structure Progress (count : Nat) (burst : Nat → Int) (need : Nat → Nat) (mlfq : MLFQ)
    (calls : List (List Slice)) : Prop where
  quanta : Quanta mlfq
  sound : Sound count burst calls.flatten mlfq.view
  single : calls.length = calls.flatten.length
  within : ∀ pointer < count, received pointer calls.flatten ≤ need pointer

/-- While the test holds, the front process needs a slice and its counters do not overflow. -/
def Eager (count : Nat) (burst : Nat → Int) (need : Nat → Nat) (test : MLFQ → Bool) : Prop :=
  ∀ {mlfq : MLFQ} {past : List Slice}, test mlfq → Sound count burst past mlfq.view →
    (∀ pointer < count, received pointer past ≤ need pointer) →
    ∀ {i pointer rest process}, Front mlfq.view i pointer rest process →
      received pointer past < need pointer ∧ intMin < process.remainingTime ∧
        process.remainingTime ≤ intMax ∧ process.quantumUsed < intMax

theorem Executes.front {next : View} {slice : Slice} (executes : Executes view next slice) :
    ∃ rest process, Front view slice.level slice.process rest process ∧
      slice.waiting = !rest.isEmpty := by
  cases executes with
  | complete front | demote front | stay front => exact ⟨_, _, front, rfl⟩

section

variable {count : Nat} {burst : Nat → Int} {need : Nat → Nat} {test : MLFQ → Bool}
  {mlfq next : MLFQ} {calls : List (List Slice)} {slices : List Slice}

theorem BetweenCalls.call (between : BetweenCalls count burst mlfq calls)
    (remaining : processesRemaining mlfq)
    (executed : executeTimeSlice mlfq = some (next, slices)) :
    ∃ slice, slices = [slice] ∧ Executes mlfq.view next.view slice ∧
      BetweenCalls count burst next (calls ++ [slices]) := by
  obtain ⟨slice, rfl, executes, nextQuanta⟩ :=
    executes_of_executeTimeSlice between.quanta remaining executed
  have flatten : (calls ++ [[slice]]).flatten = calls.flatten ++ [slice] := by simp
  refine ⟨slice, rfl, executes, nextQuanta, ?_, ?_⟩
  · rw [flatten]
    exact between.sound.step executes
  · rw [flatten, length_append, length_append, between.single]
    rfl

theorem BetweenCalls.iterates (between : BetweenCalls count burst mlfq [])
    (iterates : Iterates processesRemaining executeTimeSlice mlfq calls next) :
    BetweenCalls count burst next calls := by
  refine iterates.invariant (BetweenCalls count burst) ?_ between
  intro state past next slices between remaining executed
  obtain ⟨-, -, -, kept⟩ := between.call remaining executed
  exact kept

theorem Progress.between (progress : Progress count burst need mlfq calls) :
    BetweenCalls count burst mlfq calls := ⟨progress.quanta, progress.sound, progress.single⟩

theorem exists_ends_of_eager (few : count ≤ maxProcesses)
    (implies : ∀ {mlfq}, test mlfq → processesRemaining mlfq)
    (eager : Eager count burst need test) (between : BetweenCalls count burst mlfq []) :
    ∃ calls finish, Ends test executeTimeSlice mlfq calls finish ∧
      Progress count burst need finish calls := by
  refine exists_ends (Progress count burst need)
    (fun _ calls => ∑ pointer ∈ Finset.range count, need pointer - calls.length)
    (fun {state past} progress tested => ?_)
    ⟨between.quanta, between.sound, between.single, fun _ _ => Nat.zero_le _⟩
  have remaining := implies tested
  obtain ⟨next, slices, executed⟩ := progress.sound.exists_slice few remaining
    fun front => (eager tested progress.sound progress.within front).2
  obtain ⟨slice, rfl, executes, nextQuanta, nextSound, nextSingle⟩ :=
    progress.between.call remaining executed
  obtain ⟨-, sound, single, within⟩ := progress
  obtain ⟨rest, process, front, -⟩ := executes.front
  obtain ⟨needed, -⟩ := eager tested sound within front
  have flatten : (past ++ [[slice]]).flatten = past.flatten ++ [slice] := by simp
  have shorter : past.length < ∑ pointer ∈ Finset.range count, need pointer := by
    rw [single, sound.length_eq_sum]
    exact Finset.sum_lt_sum (fun pointer member => within pointer (Finset.mem_range.mp member))
      ⟨slice.process, Finset.mem_range.mpr
        (sound.lt_of_mem (Sound.mem_order_of_front front)), needed⟩
  refine ⟨next, [slice], executed, ⟨nextQuanta, nextSound, nextSingle, ?_⟩, ?_⟩
  · intro pointer pointerLt
    rw [flatten]
    by_cases mine : slice.process = pointer
    · subst mine
      rw [received_append_self rfl]
      omega
    · rw [received_append_other mine]
      exact within pointer pointerLt
  · rw [length_append, length_singleton]
    omega

end

/-- All processes wait in the first queue. -/
structure Loaded (processes : List (Int × Int)) (mlfq : MLFQ) : Prop where
  quanta : Quanta mlfq
  few : processes.length ≤ maxProcesses
  allocated : mlfq.allocated = processes.length
  top : mlfq.view.queues 0 = range processes.length
  lower : ∀ i ≠ 0, mlfq.view.queues i = []
  memory : ∀ {pointer process}, processes[pointer]? = some process →
    mlfq.memory pointer = some ⟨process.1, process.2, process.2, 0, 0⟩

theorem loaded_initMlfq (cells : Nat → Nat → Nat) : Loaded [] (initMlfq cells) :=
  ⟨fun _ => rfl, Nat.zero_le _, rfl, rfl, fun _ _ => rfl, by simp⟩

section

variable {processes more : List (Int × Int)} {mlfq next : MLFQ}

theorem Loaded.addProcess (loaded : Loaded processes mlfq) {process : Int × Int}
    (added : addProcess mlfq process.1 process.2 = some next) :
    Loaded (processes ++ [process]) next := by
  simp only [MultiLevelQueue.addProcess, Option.bind_eq_bind, Option.bind_eq_some_iff] at added
  obtain ⟨topQueue, pushed, ⟨⟩⟩ := added
  obtain ⟨room, contents⟩ := ArrayQueue.push_eq_some pushed
  have top : (mlfq.queues 0).processes.contents = range processes.length := loaded.top
  have count : (mlfq.queues 0).processes.count = processes.length := by
    rw [← ArrayQueue.length_contents, top, length_range]
  refine ⟨quantum_update loaded.quanta (loaded.quanta 0), ?_, ?_, ?_, fun i notTop => ?_, ?_⟩
  · rw [length_append, length_singleton]
    omega
  · simp [loaded.allocated]
  · simp only [MLFQ.view, update_self, contents, top, loaded.allocated,
      length_append, length_singleton, range_succ]
  · simp only [MLFQ.view, update_of_ne notTop]
    exact loaded.lower i notTop
  · intro pointer found foundEq
    simp only [loaded.allocated]
    by_cases last : pointer = processes.length
    · subst last
      rw [getElem?_concat_length, Option.some.injEq] at foundEq
      rw [update_self, foundEq]
    · rw [update_of_ne last]
      refine loaded.memory ?_
      rw [getElem?_append] at foundEq
      split at foundEq
      · exact foundEq
      · rw [getElem?_eq_none (by simp; omega)] at foundEq
        cases foundEq

theorem Loaded.addProcesses (loaded : Loaded processes mlfq)
    (added : addProcesses mlfq more = some next) : Loaded (processes ++ more) next := by
  induction more generalizing processes mlfq with
  | nil =>
    cases added
    rwa [append_nil]
  | cons process more ih =>
    simp only [MultiLevelQueue.addProcesses, Option.bind_eq_bind, Option.bind_eq_some_iff] at added
    obtain ⟨middle, first, rest⟩ := added
    rw [append_cons]
    exact ih (loaded.addProcess first) rest

theorem Loaded.exists_addProcesses (loaded : Loaded processes mlfq)
    (few : (processes ++ more).length ≤ maxProcesses) :
    ∃ next, MultiLevelQueue.addProcesses mlfq more = some next := by
  induction more generalizing processes mlfq with
  | nil => exact ⟨mlfq, rfl⟩
  | cons process more ih =>
    have top : (mlfq.queues 0).processes.contents = range processes.length := loaded.top
    have count : (mlfq.queues 0).processes.count = processes.length := by
      rw [← ArrayQueue.length_contents, top, length_range]
    rw [length_append, length_cons] at few
    obtain ⟨topQueue, pushed⟩ := ArrayQueue.exists_push
      (show (mlfq.queues 0).processes.count < maxProcesses by omega) mlfq.allocated
    obtain ⟨middle, added⟩ : ∃ middle,
        MultiLevelQueue.addProcess mlfq process.1 process.2 = some middle := by
      simp only [MultiLevelQueue.addProcess, pushed, Option.bind_eq_bind, Option.bind_some]
      exact ⟨_, rfl⟩
    obtain ⟨next, rest⟩ := ih (loaded.addProcess added)
      (by simp only [length_append, length_singleton]; omega)
    exact ⟨next, by simp only [MultiLevelQueue.addProcesses, added, Option.bind_eq_bind,
      Option.bind_some, rest]⟩

def burstTime (processes : List (Int × Int)) (pointer : Nat) : Int :=
  (processes.map Prod.snd).getD pointer 0

theorem burstTime_eq {pointer : Nat} (inside : pointer < processes.length) :
    burstTime processes pointer = processes[pointer].2 := by
  simp [burstTime, inside]

theorem Loaded.sound (loaded : Loaded processes mlfq) :
    Sound processes.length (burstTime processes) [] mlfq.view := by
  have one := loaded.lower 1 (by decide)
  have two := loaded.lower 2 (by decide)
  have orderEq : order mlfq.view.queues = range processes.length := by
    rw [order, one, two, loaded.top]
    rfl
  refine ⟨by simp, orderEq ▸ List.Sublist.refl _, fun level levelLt pointer member => ?_,
    fun pointer pointerLt absent => ?_⟩
  · by_cases isTop : level = 0
    · subst isTop
      rw [loaded.top, mem_range] at member
      have found := loaded.memory (getElem?_eq_getElem member)
      have burst := burstTime_eq member
      refine ⟨_, found, ?_⟩
      exact ⟨by simp [burst, received], fun isPositive => burst ▸ isPositive, rfl,
        by simp [received, quantum], le_rfl, fun _ => by simp [quantum], rfl⟩
    · rw [loaded.lower level isTop] at member
      cases member
  · rw [orderEq] at absent
    exact absurd (mem_range.mpr pointerLt) absent

theorem Loaded.between (loaded : Loaded processes mlfq) :
    BetweenCalls processes.length (burstTime processes) mlfq [] :=
  ⟨loaded.quanta, loaded.sound, rfl⟩

end

/-- The process is in one queue, once, at the index of its level, and has its time left. -/
def Queued (burst : Int) (past : List Slice) (mlfq : MLFQ) (pointer : Nat) : Prop :=
  (received pointer past : Int) < burst ∧ completions pointer past = 0 ∧
    ∃ process, mlfq.memory pointer = some process ∧
      process.remainingTime = burst - received pointer past ∧
      0 ≤ process.queueLevel ∧ process.queueLevel < maxQueues ∧
      ∀ level < maxQueues, ((mlfq.queues level).processes.contents.count pointer : Int) =
        if process.queueLevel = level then 1 else 0

/-- The process has had its slices, was completed and freed once, and is in no queue. -/
def Completed (burst : Int) (past : List Slice) (mlfq : MLFQ) (pointer : Nat) : Prop :=
  (received pointer past : Int) = burst ∧ completions pointer past = 1 ∧
    mlfq.memory pointer = none ∧
    ∀ level < maxQueues, pointer ∉ (mlfq.queues level).processes.contents

section

variable {count : Nat} {burst : Nat → Int} {past : List Slice} {mlfq : MLFQ} {pointer : Nat}

theorem Sound.queued_of_mem (sound : Sound count burst past mlfq.view)
    (positive : 1 ≤ burst pointer) (member : pointer ∈ MultiLevelQueue.order mlfq.view.queues) :
    Queued (burst pointer) past mlfq pointer := by
  obtain ⟨level, levelLt, here⟩ := mem_order.mp member
  obtain ⟨process, found, accounts⟩ := sound.queued level levelLt pointer here
  have remaining := accounts.remaining
  have := accounts.positive positive
  have isLevel := accounts.queueLevel
  refine ⟨by omega, accounts.incomplete, process, found, remaining, by omega, by omega,
    fun other otherLt => ?_⟩
  rw [isLevel]
  by_cases same : level = other
  · subst same
    have once : (mlfq.queues level).processes.contents.count pointer = 1 :=
      count_eq_one_of_mem (nodup_queue sound.nodup levelLt) here
    rw [if_pos rfl, once]
    rfl
  · have absent : (mlfq.queues other).processes.contents.count pointer = 0 :=
      count_eq_zero.mpr fun there =>
        same (level_unique sound.nodup levelLt otherLt here there)
    rw [if_neg (by omega), absent]
    rfl

theorem Sound.completed_of_notMem (sound : Sound count burst past mlfq.view)
    (pointerLt : pointer < count) (absent : pointer ∉ MultiLevelQueue.order mlfq.view.queues) :
    Completed (burst pointer) past mlfq pointer := by
  obtain ⟨freed, received, completed⟩ := sound.done pointer pointerLt absent
  refine ⟨received, completed, freed, fun level levelLt here => ?_⟩
  exact absent (mem_order.mpr ⟨level, levelLt, here⟩)

theorem not_mem_order_of_ended (ended : processesRemaining mlfq = false) :
    pointer ∉ order mlfq.view.queues := by
  rw [processesRemaining, any_eq_false] at ended
  intro member
  obtain ⟨level, levelLt, here⟩ := mem_order.mp member
  have empty : mlfq.view.queues level = [] :=
    ArrayQueue.contents_eq_nil_iff.mpr (by simpa using ended level (mem_range.mpr levelLt))
  rw [empty] at here
  cases here

theorem one_le_quantum (level : Nat) : 1 ≤ quantum level := by
  have : 0 < 1 <<< level := by
    rw [Nat.one_shiftLeft]
    exact Nat.two_pow_pos level
  rw [quantum]
  omega

theorem eager_of_positive (positive : ∀ pointer < count, 1 ≤ burst pointer)
    (fits : ∀ pointer < count, burst pointer ≤ intMax) :
    Eager count burst (fun pointer => (burst pointer).toNat) processesRemaining := by
  intro mlfq past _ sound _ i pointer rest process front
  have accounts := sound.accounts front
  have pointerLt := sound.lt_of_mem (Sound.mem_order_of_front front)
  have positive := positive pointer pointerLt
  have fits := fits pointer pointerLt
  have remaining := accounts.remaining
  have atLeastOne := accounts.positive positive
  have received := accounts.received
  have quantumGe := one_le_quantum i
  have intMinLt : intMin < 0 := by decide
  exact ⟨show MultiLevelQueue.received pointer past < (burst pointer).toNat by omega, by omega,
    by omega, by omega⟩

theorem sum_getD (values : List Int) :
    ∑ index ∈ Finset.range values.length, values.getD index 0 = values.sum := by
  induction values with
  | nil => rfl
  | cons value values ih =>
    rw [length_cons, Finset.sum_range_succ', sum_cons, ← ih, Int.add_comm]
    rfl

end

/-- `run_mlfq` ends, and in every state an unfinished process is in one queue, once. -/
theorem all_processes_completed (cells : Nat → Nat → Nat) (processes : List (Int × Int))
    (few : processes.length ≤ maxProcesses)
    (bursts : ∀ process ∈ processes, 1 ≤ process.2 ∧ process.2 ≤ intMax) :
    ∃ loaded calls finish, addProcesses (initMlfq cells) processes = some loaded ∧
      Ends processesRemaining executeTimeSlice loaded calls finish ∧
      (calls.length : Int) = (processes.map Prod.snd).sum ∧
      (∀ past future, calls = past ++ future → ∃ state,
        Iterates processesRemaining executeTimeSlice loaded past state ∧
        ∀ pointer < processes.length,
          Queued (burstTime processes pointer) past.flatten state pointer ∨
          Completed (burstTime processes pointer) past.flatten state pointer) ∧
      ∀ pointer < processes.length,
        Completed (burstTime processes pointer) calls.flatten finish pointer := by
  obtain ⟨loaded, added⟩ := (loaded_initMlfq cells).exists_addProcesses few
  have isLoaded : Loaded processes loaded := (loaded_initMlfq cells).addProcesses added
  have each : ∀ pointer < processes.length,
      1 ≤ burstTime processes pointer ∧ burstTime processes pointer ≤ intMax := by
    intro pointer pointerLt
    rw [burstTime_eq pointerLt]
    exact bursts _ (getElem_mem pointerLt)
  have positive := fun pointer pointerLt => (each pointer pointerLt).1
  obtain ⟨calls, finish, ⟨iterates, ended⟩, progress⟩ := exists_ends_of_eager few id
    (eager_of_positive positive fun pointer pointerLt => (each pointer pointerLt).2)
    isLoaded.between
  have completed : ∀ pointer < processes.length,
      Completed (burstTime processes pointer) calls.flatten finish pointer :=
    fun pointer pointerLt =>
      progress.sound.completed_of_notMem pointerLt (not_mem_order_of_ended ended)
  refine ⟨loaded, calls, finish, added, ⟨iterates, ended⟩, ?_, ?_, completed⟩
  · rw [progress.single, progress.sound.length_eq_sum, ← sum_getD, length_map, Nat.cast_sum]
    exact Finset.sum_congr rfl fun pointer member =>
      (completed pointer (Finset.mem_range.mp member)).1
  · rintro past future rfl
    obtain ⟨state, first, -⟩ := iterates_append.mp iterates
    refine ⟨state, first, fun pointer pointerLt => ?_⟩
    have sound := (isLoaded.between.iterates first).sound
    by_cases member : pointer ∈ order state.view.queues
    · exact .inl (sound.queued_of_mem (positive pointer pointerLt) member)
    · exact .inr (sound.completed_of_notMem pointerLt member)

def mainProcesses : List (Int × Int) :=
  [(1, 8), (2, 4), (3, 2)]

theorem main_processes_completed :
    ∃ loaded calls finish, addProcesses (initMlfq fun _ _ => 0) mainProcesses = some loaded ∧
      Ends processesRemaining executeTimeSlice loaded calls finish ∧
      (calls.length : Int) = 14 ∧
      ∀ pointer < 3, Completed (burstTime mainProcesses pointer) calls.flatten finish pointer := by
  obtain ⟨loaded, calls, finish, added, ended, length, -, completed⟩ :=
    all_processes_completed (fun _ _ => 0) mainProcesses (by decide) (by decide)
  exact ⟨loaded, calls, finish, added, ended, length, completed⟩

end BitsAndBytes.MultiLevelQueue
