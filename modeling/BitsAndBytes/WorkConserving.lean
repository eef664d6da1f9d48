import Mathlib.Algebra.Order.BigOperators.Group.List
import Mathlib.Algebra.Order.Ring.Int
import Mathlib.Data.List.MinMax

/-! # Work-conserving schedules -/

namespace BitsAndBytes.WorkConserving

open List

structure Job where
  arrival : Int
  work : Int

def totalWork (jobs : List Job) : Int :=
  (jobs.map Job.work).sum

def workFrom (time : Int) (jobs : List Job) : Int :=
  totalWork (jobs.filter fun job => time ≤ job.arrival)

def finish (now : Int) (jobs : List Job) : Int :=
  (jobs.map fun job => job.arrival + workFrom job.arrival jobs).foldr max
    (now + totalWork jobs)

variable {now later time bound : Int} {job : Job} {jobs others before after rest : List Job}

@[simp]
theorem totalWork_nil : totalWork [] = 0 := rfl

@[simp]
theorem totalWork_cons (job : Job) (jobs : List Job) :
    totalWork (job :: jobs) = job.work + totalWork jobs := by
  simp [totalWork]

@[simp]
theorem totalWork_append (before after : List Job) :
    totalWork (before ++ after) = totalWork before + totalWork after := by
  simp [totalWork]

@[simp]
theorem workFrom_nil (time : Int) : workFrom time [] = 0 := rfl

@[simp]
theorem workFrom_cons (time : Int) (job : Job) (jobs : List Job) : workFrom time (job :: jobs) =
      (if time ≤ job.arrival then job.work else 0) + workFrom time jobs := by
  by_cases counted : time ≤ job.arrival <;> simp [counted, workFrom]

@[simp]
theorem workFrom_append (time : Int) (before after : List Job) :
    workFrom time (before ++ after) = workFrom time before + workFrom time after := by
  simp [workFrom]

theorem totalWork_nonneg (nonneg : ∀ job ∈ jobs, 0 ≤ job.work) : 0 ≤ totalWork jobs :=
  sum_nonneg (forall_mem_map.mpr nonneg)

theorem workFrom_le_totalWork (nonneg : ∀ job ∈ jobs, 0 ≤ job.work) :
    workFrom time jobs ≤ totalWork jobs :=
  (filter_sublist.map Job.work).sum_le_sum (forall_mem_map.mpr nonneg)

theorem workFrom_eq_totalWork (late : ∀ job ∈ jobs, job.work ≠ 0 → time ≤ job.arrival) :
    workFrom time jobs = totalWork jobs := by
  induction jobs with
  | nil => rfl
  | cons job jobs ih =>
    have first := late job mem_cons_self
    have others := ih fun other member => late other (mem_cons_of_mem job member)
    rw [workFrom_cons, totalWork_cons, others]
    split
    · rfl
    · rename_i early
      by_contra different
      exact early (first fun noWork => different (by rw [noWork]))

theorem work_le_workFrom (nonneg : ∀ job ∈ jobs, 0 ≤ job.work) (member : job ∈ jobs) :
    job.work ≤ workFrom job.arrival jobs := by
  obtain ⟨before, after, rfl⟩ := append_of_mem member
  have beforeNonneg : 0 ≤ workFrom job.arrival before :=
    totalWork_nonneg fun other found =>
      nonneg other (mem_append_left _ (mem_of_mem_filter found))
  have afterNonneg : 0 ≤ workFrom job.arrival after :=
    totalWork_nonneg fun other found =>
      nonneg other (mem_append_right _ (mem_cons_of_mem _ (mem_of_mem_filter found)))
  rw [workFrom_append, workFrom_cons, if_pos le_rfl]
  omega

theorem foldr_max_le_iff {times : List Int} :
    times.foldr max now ≤ bound ↔ now ≤ bound ∧ ∀ time ∈ times, time ≤ bound := by
  induction times with
  | nil => simp
  | cons time times ih => simp [ih, and_left_comm]

theorem finish_le_iff : finish now jobs ≤ bound ↔ now + totalWork jobs ≤ bound ∧
      ∀ job ∈ jobs, job.arrival + workFrom job.arrival jobs ≤ bound := by
  rw [finish, foldr_max_le_iff, forall_mem_map]

theorem finish_le_iff_of_nonneg (nonneg : ∀ job ∈ jobs, 0 ≤ job.work) :
    finish now jobs ≤ bound ↔ now + totalWork jobs ≤ bound ∧
      ∀ job ∈ jobs, now < job.arrival → job.arrival + workFrom job.arrival jobs ≤ bound := by
  rw [finish_le_iff]
  constructor
  · rintro ⟨total, each⟩
    exact ⟨total, fun job member _ => each job member⟩
  · rintro ⟨total, each⟩
    refine ⟨total, fun job member => ?_⟩
    by_cases arrived : now < job.arrival
    · exact each job member arrived
    · have part : workFrom job.arrival jobs ≤ totalWork jobs := workFrom_le_totalWork nonneg
      omega

theorem finish_perm (same : jobs.Perm others) : finish now jobs = finish now others := by
  have total : totalWork jobs = totalWork others := (same.map Job.work).sum_eq
  have from_eq : ∀ time, workFrom time jobs = workFrom time others := fun time =>
    ((same.filter _).map Job.work).sum_eq
  refine eq_of_forall_ge_iff fun bound => ?_
  simp only [finish_le_iff, total, from_eq, same.mem_iff]

theorem now_add_totalWork_le_finish : now + totalWork jobs ≤ finish now jobs :=
  (finish_le_iff.mp le_rfl).1

theorem now_le_finish (nonneg : ∀ job ∈ jobs, 0 ≤ job.work) : now ≤ finish now jobs := by
  have total := totalWork_nonneg nonneg
  have whole : now + totalWork jobs ≤ finish now jobs := now_add_totalWork_le_finish
  omega

theorem now_add_work_le_finish (nonneg : ∀ job ∈ jobs, 0 ≤ job.work) (member : job ∈ jobs) :
    now + job.work ≤ finish now jobs := by
  have own := work_le_workFrom nonneg member
  have part : workFrom job.arrival jobs ≤ totalWork jobs := workFrom_le_totalWork nonneg
  have whole : now + totalWork jobs ≤ finish now jobs := now_add_totalWork_le_finish
  omega

theorem finish_execute (job : Job) (arrived : job.arrival ≤ now) (positive : 0 ≤ time)
    (within : time ≤ job.work) (beforeNonneg : ∀ other ∈ before, 0 ≤ other.work)
    (afterNonneg : ∀ other ∈ after, 0 ≤ other.work) :
    finish (now + time) (before ++ ⟨job.arrival, job.work - time⟩ :: after) =
      finish now (before ++ job :: after) := by
  have nonneg := forall_mem_append.mpr ⟨beforeNonneg,
      forall_mem_cons.mpr ⟨positive.trans within, afterNonneg⟩⟩
  have nonnegLater : ∀ other ∈ before ++ ⟨job.arrival, job.work - time⟩ :: after, 0 ≤ other.work :=
    forall_mem_append.mpr ⟨beforeNonneg,
      forall_mem_cons.mpr ⟨Int.sub_nonneg.mpr within, afterNonneg⟩⟩
  have total : now + time + totalWork (before ++ ⟨job.arrival, job.work - time⟩ :: after) =
      now + totalWork (before ++ job :: after) := by
    simp only [totalWork_append, totalWork_cons]
    omega
  have unaffected : ∀ other : Job, now < other.arrival →
      workFrom other.arrival (before ++ ⟨job.arrival, job.work - time⟩ :: after) =
        workFrom other.arrival (before ++ job :: after) := by
    intro other late
    have excluded : ¬ other.arrival ≤ job.arrival := by omega
    simp [excluded]
  refine eq_of_forall_ge_iff fun bound => ⟨fun done => ?_, fun done => ?_⟩
  · obtain ⟨totalLe, each⟩ := finish_le_iff.mp done
    rw [finish_le_iff_of_nonneg nonneg]
    refine ⟨total ▸ totalLe, ?_⟩
    rw [forall_mem_append, forall_mem_cons] at each ⊢
    refine ⟨fun other member late => ?_, fun late => absurd late (not_lt.mpr arrived),
      fun other member late => ?_⟩
    · exact unaffected other late ▸ each.1 other member
    · exact unaffected other late ▸ each.2.2 other member
  · obtain ⟨totalLe, each⟩ := finish_le_iff.mp done
    rw [finish_le_iff_of_nonneg nonnegLater]
    refine ⟨total ▸ totalLe, ?_⟩
    rw [forall_mem_append, forall_mem_cons] at each ⊢
    refine ⟨fun other member late => ?_, fun late => absurd late (by simp only; omega),
      fun other member late => ?_⟩
    · exact unaffected other (by omega) ▸ each.1 other member
    · exact unaffected other (by omega) ▸ each.2.2 other member

theorem finish_idle (nowLe : now ≤ later) (waiting : ∃ job ∈ jobs, job.work ≠ 0)
    (noneArrived : ∀ job ∈ jobs, job.work ≠ 0 → later ≤ job.arrival) :
    finish later jobs = finish now jobs := by
  have first : ∃ job ∈ jobs, later ≤ job.arrival ∧ workFrom job.arrival jobs = totalWork jobs := by
    obtain ⟨someJob, someMember, someWork⟩ := waiting
    let unfinished := jobs.filter fun job => job.work ≠ 0
    have someUnfinished : someJob ∈ unfinished := mem_filter.mpr ⟨someMember, by simpa⟩
    obtain ⟨job, isLeast⟩ : ∃ job, unfinished.argmin Job.arrival = some job :=
      Option.ne_none_iff_exists'.mp (mt argmin_eq_none.mp (ne_nil_of_mem someUnfinished))
    have member := mem_filter.mp (argmin_mem isLeast)
    refine ⟨job, member.1, noneArrived job member.1 (by simpa using member.2), ?_⟩
    refine workFrom_eq_totalWork fun other otherMember hasWork => ?_
    exact le_of_mem_argmin (mem_filter.mpr ⟨otherMember, by simpa⟩) isLeast
  refine eq_of_forall_ge_iff fun bound => ?_
  rw [finish_le_iff, finish_le_iff]
  constructor
  · rintro ⟨total, each⟩
    exact ⟨by omega, each⟩
  · rintro ⟨total, each⟩
    obtain ⟨job, member, late, all⟩ := first
    have := each job member
    exact ⟨by omega, each⟩

theorem finish_cons_of_done (arrived : job.arrival ≤ now) (done : job.work = 0)
    (nonneg : ∀ other ∈ rest, 0 ≤ other.work) : finish now (job :: rest) = finish now rest := by
  have allNonneg : ∀ other ∈ job :: rest, 0 ≤ other.work :=
    forall_mem_cons.mpr ⟨done.ge, nonneg⟩
  have workEq : ∀ time, workFrom time (job :: rest) = workFrom time rest := by
    intro time
    simp [done]
  refine eq_of_forall_ge_iff fun bound => ?_
  rw [finish_le_iff_of_nonneg allNonneg, finish_le_iff_of_nonneg nonneg, totalWork_cons, done,
    zero_add]
  simp only [workEq, forall_mem_cons]
  constructor
  · rintro ⟨total, -, each⟩
    exact ⟨total, each⟩
  · rintro ⟨total, each⟩
    exact ⟨total, fun late => absurd late (not_lt.mpr arrived), each⟩

theorem finish_cons_of_first (hasWork : 0 < job.work)
    (isFirst : ∀ other ∈ rest, job.arrival ≤ other.arrival)
    (nonneg : ∀ other ∈ rest, 0 ≤ other.work) :
    finish now (job :: rest) = finish (max now job.arrival + job.work) rest := by
  have idle : finish (max now job.arrival) (job :: rest) = finish now (job :: rest) := by
    rcases le_total job.arrival now with arrived | early
    · rw [max_eq_left arrived]
    · rw [max_eq_right early]
      refine finish_idle early ⟨job, mem_cons_self, hasWork.ne'⟩ fun other member _ => ?_
      rcases mem_cons.mp member with rfl | last
      · exact le_rfl
      · exact isFirst other last
  have executed := finish_execute job (le_max_right now job.arrival) hasWork.le le_rfl
    (forall_mem_nil _) nonneg
  rw [← idle]
  refine executed.symm.trans (finish_cons_of_done ?_ (Int.sub_self job.work) nonneg)
  simp only
  omega

theorem finish_of_done (arrived : ∀ job ∈ jobs, job.arrival ≤ now)
    (done : ∀ job ∈ jobs, job.work = 0) : finish now jobs = now := by
  induction jobs with
  | nil => simp [finish]
  | cons job jobs ih =>
    rw [forall_mem_cons] at arrived done
    rw [finish_cons_of_done arrived.1 done.1 fun other member => (done.2 other member).ge]
    exact ih arrived.2 done.2

def completions (now : Int) : List Job → List Int
  | [] => []
  | job :: jobs =>
    (max now job.arrival + job.work) :: completions (max now job.arrival + job.work) jobs

def arrivalsWithWork (jobs : List Job) (last : Nat) : Set Int :=
  {time | ∃ first ≤ last, ∃ job, jobs[first]? = some job ∧
    time = job.arrival + totalWork ((jobs.take (last + 1)).drop first)}

theorem mem_arrivalsWithWork_cons {last : Nat} : time ∈ arrivalsWithWork (job :: jobs) (last + 1) ↔
      time = job.arrival + (job.work + totalWork (jobs.take (last + 1))) ∨
        time ∈ arrivalsWithWork jobs last := by
  constructor
  · rintro ⟨first, firstLe, found, isFound, rfl⟩
    cases first with
    | zero =>
      cases isFound
      exact .inl rfl
    | succ first => exact .inr ⟨first, Nat.le_of_succ_le_succ firstLe, found, isFound, rfl⟩
  · rintro (rfl | ⟨first, firstLe, found, isFound, rfl⟩)
    · refine ⟨0, Nat.zero_le _, job, rfl, ?_⟩
      rw [take_succ_cons, drop_zero, totalWork_cons]
    · exact ⟨first + 1, Nat.succ_le_succ firstLe, found, isFound, rfl⟩

theorem mem_arrivalsWithWork_zero :
    time ∈ arrivalsWithWork (job :: jobs) 0 ↔ time = job.arrival + job.work := by
  constructor
  · rintro ⟨first, firstLe, found, isFound, rfl⟩
    obtain rfl := Nat.le_zero.mp firstLe
    cases isFound
    simp
  · rintro rfl
    exact ⟨0, le_rfl, job, rfl, by simp⟩

theorem arrival_add_work_mem {last : Nat} (found : jobs[last]? = some job) :
    job.arrival + job.work ∈ arrivalsWithWork jobs last := by
  refine ⟨last, le_rfl, job, found, ?_⟩
  obtain ⟨inside, rfl⟩ := List.getElem?_eq_some_iff.mp found
  rw [drop_take, drop_eq_getElem_cons inside, Nat.add_sub_cancel_left,
    take_succ_cons, take_zero, totalWork_cons, totalWork_nil, Int.add_zero]

@[simp]
theorem length_completions (now : Int) (jobs : List Job) :
    (completions now jobs).length = jobs.length := by
  induction jobs generalizing now with
  | nil => rfl
  | cons job jobs ih => rw [completions, length_cons, ih, length_cons]

theorem isGreatest_completions {last : Nat} (done : (completions now jobs)[last]? = some time) :
    IsGreatest (insert (now + totalWork (jobs.take (last + 1))) (arrivalsWithWork jobs last))
      time := by
  induction jobs generalizing now last with
  | nil => cases done
  | cons job jobs ih =>
    cases last with
    | zero =>
      cases done
      constructor
      · rw [Set.mem_insert_iff, mem_arrivalsWithWork_zero]
        rcases max_choice now job.arrival with isNow | isArrival
        · exact .inl (by simp [isNow])
        · exact .inr (by rw [isArrival])
      · intro other member
        rw [Set.mem_insert_iff, mem_arrivalsWithWork_zero] at member
        rcases member with rfl | rfl
        · simp
        · simp
    | succ last =>
      obtain ⟨isMember, isBound⟩ := ih done
      rw [take_succ_cons, totalWork_cons]
      have before := isBound (Set.mem_insert _ _)
      constructor
      · rw [Set.mem_insert_iff, mem_arrivalsWithWork_cons]
        rcases isMember with rfl | later
        · rcases max_choice now job.arrival with isNow | isArrival
          · exact .inl (by rw [isNow]; omega)
          · exact .inr (.inl (by rw [isArrival]; omega))
        · exact .inr (.inr later)
      · intro other member
        rw [Set.mem_insert_iff, mem_arrivalsWithWork_cons] at member
        rcases member with rfl | rfl | later
        · omega
        · omega
        · exact isBound (Set.mem_insert_of_mem _ later)

theorem isGreatest_completions_of_le {last : Nat} (early : ∀ job ∈ jobs, now ≤ job.arrival)
    (done : (completions now jobs)[last]? = some time) :
    IsGreatest (arrivalsWithWork jobs last) time := by
  obtain ⟨isMember, isBound⟩ := isGreatest_completions done
  refine ⟨?_, fun other member => isBound (Set.mem_insert_of_mem _ member)⟩
  rcases isMember with rfl | isArrival
  · cases jobs with
    | nil => cases done
    | cons job jobs =>
      have first : job.arrival + totalWork ((job :: jobs).take (last + 1)) ∈
          arrivalsWithWork (job :: jobs) last :=
        ⟨0, Nat.zero_le last, job, rfl, by rw [drop_zero]⟩
      have notLater := isBound (Set.mem_insert_of_mem _ first)
      have notEarlier := early job mem_cons_self
      rwa [show now = job.arrival by omega]
  · exact isArrival

end BitsAndBytes.WorkConserving
