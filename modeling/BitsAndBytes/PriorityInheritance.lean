import BitsAndBytes.Interleaving

/-! # The mutex of `priority_inheritance.c` -/

namespace BitsAndBytes.PriorityInheritance

open Interleaving OperationRuns Function List Option

variable {Task : Type*}

/-- `rt_mutex`, with the task that has the `lock`. -/
structure RtMutex (Task : Type*) where
  lock : Option Task
  ownerPriority : Int
  highestWaiterPriority : Int

def rtMutexInit : RtMutex Task := ⟨none, 0, 0⟩

inductive Point
  | outside
  | compare
  | boost
  | lock
  | blocked
  | setOwner
  | resetHighest
  | critical
  | unlock
deriving DecidableEq

def advance (priority : Int) (task : Task) (mutex : RtMutex Task) :
    Point → Option (RtMutex Task × Point)
  | .outside => some (mutex, if mutex.ownerPriority ≠ 0 then .compare else .lock)
  | .compare => some (mutex, if priority > mutex.highestWaiterPriority then .boost else .lock)
  | .boost => some ({ mutex with highestWaiterPriority := priority }, .lock)
  | .lock =>
    match mutex.lock with
    | none => some ({ mutex with lock := some task }, .setOwner)
    | some _ => some (mutex, .blocked)
  | .blocked =>
    match mutex.lock with
    | none => some ({ mutex with lock := some task }, .setOwner)
    | some _ => none
  | .setOwner => some ({ mutex with ownerPriority := priority }, .resetHighest)
  | .resetHighest => some ({ mutex with highestWaiterPriority := 0 }, .critical)
  | .critical => some ({ mutex with ownerPriority := 0 }, .unlock)
  | .unlock => some ({ mutex with lock := none }, .outside)

inductive Moves (priority : Int) (task : Task) :
    RtMutex Task → Point → RtMutex Task → Point → Prop
  | findOwned {mutex} (owned : mutex.ownerPriority ≠ 0) :
      Moves priority task mutex .outside mutex .compare
  | findFree {mutex} (free : mutex.ownerPriority = 0) :
      Moves priority task mutex .outside mutex .lock
  | higher {mutex} (above : mutex.highestWaiterPriority < priority) :
      Moves priority task mutex .compare mutex .boost
  | notHigher {mutex} (covered : priority ≤ mutex.highestWaiterPriority) :
      Moves priority task mutex .compare mutex .lock
  | boost {mutex} :
      Moves priority task mutex .boost { mutex with highestWaiterPriority := priority } .lock
  | block {mutex} (taken : mutex.lock.isSome) : Moves priority task mutex .lock mutex .blocked
  | acquire {mutex point} (waits : point = .lock ∨ point = .blocked) (free : mutex.lock = none) :
      Moves priority task mutex point { mutex with lock := some task } .setOwner
  | setOwner {mutex} :
      Moves priority task mutex .setOwner { mutex with ownerPriority := priority } .resetHighest
  | resetHighest {mutex} :
      Moves priority task mutex .resetHighest { mutex with highestWaiterPriority := 0 } .critical
  | clearOwner {mutex} :
      Moves priority task mutex .critical { mutex with ownerPriority := 0 } .unlock
  | unlock {mutex} : Moves priority task mutex .unlock { mutex with lock := none } .outside

theorem moves_of_advance {priority : Int} {task : Task} {mutex next : RtMutex Task}
    {point nextPoint : Point}
    (advanced : advance priority task mutex point = some (next, nextPoint)) :
    Moves priority task mutex point next nextPoint := by
  cases point with
  | outside =>
    rw [advance] at advanced
    split at advanced <;> cases advanced
    · exact .findOwned ‹_›
    · exact .findFree (not_not.mp ‹_›)
  | compare =>
    rw [advance] at advanced
    split at advanced <;> cases advanced
    · exact .higher ‹_›
    · exact .notHigher (not_lt.mp ‹_›)
  | lock =>
    rw [advance] at advanced
    split at advanced <;> rename_i found <;> cases advanced
    · exact .acquire (.inl rfl) found
    · exact .block (by rw [found]; rfl)
  | blocked =>
    rw [advance] at advanced
    split at advanced <;> rename_i found <;> cases advanced
    exact .acquire (.inr rfl) found
  | _ =>
    cases advanced
    constructor

def step [DecidableEq Task] (priority : Task → Int) (config : Config Task (RtMutex Task) Point)
    (task : Task) : Option (Config Task (RtMutex Task) Point × Unit) :=
  (advance (priority task) task config.shared (config.points task)).map fun next =>
    (⟨next.1, update config.points task next.2⟩, ())

def start (Task : Type*) : Config Task (RtMutex Task) Point :=
  ⟨rtMutexInit, fun _ => .outside⟩

/-- While the lock is taken, no task that waits has a higher priority than the field. -/
def CoversWaiters (priority : Task → Int) (config : Config Task (RtMutex Task) Point) : Prop :=
  config.shared.lock.isSome → ∀ task, config.points task = .blocked →
    priority task ≤ config.shared.highestWaiterPriority

/-- A task begins to lock only while the others are outside or in their critical section. -/
def Undisturbed (config : Config Task (RtMutex Task) Point) (task : Task) : Prop :=
  config.points task = .outside → ∀ other, other ≠ task →
    config.points other = .outside ∨ config.points other = .critical

def Holds (point : Point) : Prop :=
  point = .setOwner ∨ point = .resetHighest ∨ point = .critical ∨ point = .unlock

/-- The points from the first test to the critical section. -/
def Enters (point : Point) : Prop :=
  point ≠ .outside ∧ point ≠ .critical ∧ point ≠ .unlock

/-- Only one task enters at a time, and the fields are those that it has written. -/
structure Sound (priority : Task → Int) (config : Config Task (RtMutex Task) Point) : Prop where
  locks : Locks Holds config.points config.shared.lock
  alone : ∀ task other, Enters (config.points task) → Enters (config.points other) → task = other
  owner : ∀ task, config.points task = .resetHighest ∨ config.points task = .critical →
    config.shared.ownerPriority = priority task
  covered : ∀ task, config.points task = .lock ∨ config.points task = .blocked →
    config.shared.lock.isSome → priority task ≤ config.shared.highestWaiterPriority

section

variable {priority : Task → Int} {config next : Config Task (RtMutex Task) Point} {task : Task}

theorem sound_start : Sound priority (start Task) where
  locks := fun _ => by simp [start, rtMutexInit, Holds]
  alone := fun _ _ enters _ => absurd rfl enters.1
  owner := fun _ => by simp [start]
  covered := fun _ => by simp [start]

theorem Sound.lock_eq_none (sound : Sound priority config) (positive : ∀ task, 0 < priority task)
    (settled : ∀ task, config.points task = .outside ∨ config.points task = .critical)
    (zero : config.shared.ownerPriority = 0) : config.shared.lock = none := by
  by_contra held
  obtain ⟨holder, isHolder⟩ := ne_none_iff_exists'.mp held
  have holds := (sound.locks holder).mpr isHolder
  rcases settled holder with out | inside
  · simp [Holds, out] at holds
  · have owned := sound.owner holder (.inr inside)
    have above := positive holder
    omega

variable [DecidableEq Task] {mutex : RtMutex Task} {point : Point}
variable (sound : Sound priority config)
include sound

section

variable (moves : Moves (priority task) task config.shared (config.points task) mutex point)
include moves

theorem Sound.locks_of_moves :
    Locks Holds (update config.points task point) mutex.lock := by
  have locks := sound.locks
  generalize here : config.points task = current at moves
  have keep : (Holds point ↔ Holds current) → mutex.lock = config.shared.lock →
      Locks Holds (update config.points task point) mutex.lock := by
    intro same lockEq
    rw [lockEq]
    exact locks.keep (here ▸ same)
  cases moves with
  | acquire waits free =>
    rw [free] at locks
    exact locks.acquire (by simp [Holds])
  | unlock => exact locks.release (by simp [here, Holds]) (by simp [Holds])
  | findOwned | findFree | higher | notHigher | boost | block | setOwner | resetHighest
  | clearOwner => exact keep (by simp [Holds]) rfl

theorem Sound.alone_of_moves (undisturbed : Undisturbed config task)
    (first second : Task) (firstEnters : Enters (update config.points task point first))
    (secondEnters : Enters (update config.points task point second)) : first = second := by
  have other : ∀ other ≠ task, Enters (config.points other) → ¬ Enters point := by
    intro other ne enters now
    have before : Enters (config.points task) ∨ config.points task = .outside := by
      generalize config.points task = current at moves
      cases moves with
      | acquire waits => rcases waits with rfl | rfl <;> simp [Enters]
      | findOwned | findFree | higher | notHigher | boost | block | setOwner => simp [Enters]
      | resetHighest | clearOwner | unlock => simp [Enters] at now
    rcases before with inside | out
    · exact ne (sound.alone other task enters inside)
    · rcases undisturbed out other ne with settled | settled <;> simp [Enters, settled] at enters
  by_cases isFirst : first = task
  · by_cases isSecond : second = task
    · rw [isFirst, isSecond]
    · rw [update_of_ne isSecond] at secondEnters
      rw [isFirst, update_self] at firstEnters
      exact absurd firstEnters (other second isSecond secondEnters)
  · rw [update_of_ne isFirst] at firstEnters
    by_cases isSecond : second = task
    · rw [isSecond, update_self] at secondEnters
      exact absurd secondEnters (other first isFirst firstEnters)
    · rw [update_of_ne isSecond] at secondEnters
      exact sound.alone first second firstEnters secondEnters

theorem Sound.owner_of_moves (owner : Task)
    (owns : update config.points task point owner =
      .resetHighest ∨ update config.points task point owner = .critical) :
    mutex.ownerPriority = priority owner := by
  by_cases mine : owner = task
  · subst mine
    generalize here : config.points owner = current at moves
    cases moves with
    | setOwner => rfl
    | resetHighest => exact sound.owner owner (.inl here)
    | findOwned | findFree | higher | notHigher | boost | block | acquire | clearOwner | unlock =>
      simp at owns
  · rw [update_of_ne mine] at owns
    have holds : Holds (config.points owner) := by
      rcases owns with there | there <;> simp [Holds, there]
    have outside : ¬ Holds (config.points task) := fun here =>
      mine (sound.locks.unique holds here)
    have unchanged : mutex.ownerPriority = config.shared.ownerPriority := by
      generalize config.points task = current at moves outside
      cases moves with
      | setOwner | clearOwner => simp [Holds] at outside
      | findOwned | findFree | higher | notHigher | boost | block | acquire | resetHighest
      | unlock => rfl
    rw [unchanged]
    exact sound.owner owner owns

theorem Sound.covered_of_moves (positive : ∀ task, 0 < priority task)
    (undisturbed : Undisturbed config task) (waiter : Task)
    (waits : update config.points task point waiter =
      .lock ∨ update config.points task point waiter = .blocked)
    (held : mutex.lock.isSome) : priority waiter ≤ mutex.highestWaiterPriority := by
  by_cases mine : waiter = task
  · subst mine
    generalize here : config.points waiter = current at moves
    cases moves with
    | findFree free =>
      have none : config.shared.lock = none := by
        refine sound.lock_eq_none positive (fun other => ?_) free
        by_cases same : other = waiter
        · exact .inl (same ▸ here)
        · exact undisturbed here other same
      rw [none] at held
      cases held
    | notHigher covered => exact covered
    | boost => exact le_rfl
    | block taken => exact sound.covered waiter (.inl here) taken
    | findOwned | higher | acquire | setOwner | resetHighest | clearOwner | unlock =>
      simp at waits
  · rw [update_of_ne mine] at waits
    have enters : Enters (config.points waiter) := by
      rcases waits with there | there <;> simp [Enters, there]
    have notInside : ¬ Enters (config.points task) := fun inside =>
      mine (sound.alone waiter task enters inside)
    have notOutside : config.points task ≠ .outside := fun out => by
      rcases undisturbed out waiter mine with settled | settled <;> simp [settled] at waits
    generalize config.points task = current at moves notInside notOutside
    cases moves with
    | clearOwner => exact sound.covered waiter waits held
    | unlock => cases held
    | acquire isWaiting => rcases isWaiting with rfl | rfl <;> simp [Enters] at notInside
    | findOwned | findFree => exact absurd rfl notOutside
    | higher | notHigher | boost | block | setOwner | resetHighest => simp [Enters] at notInside

end

theorem Sound.step (positive : ∀ task, 0 < priority task) (undisturbed : Undisturbed config task)
    {out : Unit} (stepEq : step priority config task = some (next, out)) : Sound priority next := by
  obtain ⟨⟨mutex, point⟩, advanced, ⟨⟩⟩ := map_eq_some_iff.mp stepEq
  have moves := moves_of_advance advanced
  exact ⟨sound.locks_of_moves moves, sound.alone_of_moves moves undisturbed,
    sound.owner_of_moves moves, sound.covered_of_moves moves positive undisturbed⟩

end

theorem exists_uncovered [DecidableEq Task] {priority : Task → Int} {first second : Task}
    (positive : 0 < priority second) (different : first ≠ second) :
    ∃ config, Reaches (step priority) (start Task) [first, first, second, second] config ∧
      ¬ CoversWaiters priority config := by
  refine ⟨⟨⟨some first, 0, 0⟩, update (update (fun _ => .outside) first .setOwner)
    second .blocked⟩, ⟨[(), (), (), ()], ?_⟩, fun covers => ?_⟩
  · simp [run, step, advance, start, rtMutexInit, different.symm]
  · have bounded := covers rfl second (by simp)
    exact absurd bounded (not_le.mpr positive)

/-- The highest waiter is covered in every interleaving exactly for at most one task. -/
theorem covers_waiters_iff_subsingleton [DecidableEq Task] (priority : Task → Int)
    (positive : ∀ task, 0 < priority task) :
    ((∀ tasks config, Reaches (step priority) (start Task) tasks config →
      CoversWaiters priority config) ↔ Subsingleton Task) ∧
    ∀ tasks config, Reaches (step priority) (start Task) tasks config →
      Respects (step priority) Undisturbed (start Task) tasks → CoversWaiters priority config := by
  have undisturbed : ∀ tasks config, Reaches (step priority) (start Task) tasks config →
      Respects (step priority) Undisturbed (start Task) tasks →
      CoversWaiters priority config := by
    intro tasks config reached respects held task blocked
    have sound := reached.guardedInvariant (Sound priority)
      (fun sound guarded stepEq => sound.step positive guarded stepEq) respects sound_start
    exact sound.covered task (.inr blocked) held
  refine ⟨⟨fun always => ⟨fun first second => ?_⟩, fun single tasks config reached => ?_⟩,
    undisturbed⟩
  · by_contra different
    obtain ⟨config, reached, uncovered⟩ := exists_uncovered (positive second) different
    exact uncovered (always _ config reached)
  · refine undisturbed tasks config reached (respects_of_forall (fun state task _ other ne => ?_) _
    _)
    exact absurd (single.elim other task) ne

inductive MainTask
  | low
  | med
  | high
deriving DecidableEq

def mainPriority : MainTask → Int
  | .low => 1
  | .med => 2
  | .high => 3

theorem one_waiter_covered : ∃ config, Reaches (step mainPriority) (start MainTask)
        (replicate 4 MainTask.low ++ replicate 4 MainTask.high) config ∧
      config.points .high = .blocked ∧ CoversWaiters mainPriority config := by
  have alone : Respects (step mainPriority) Undisturbed (start MainTask)
      (replicate 4 MainTask.low ++ replicate 4 MainTask.high) := by
    refine .cons ?_ rfl (.cons ?_ rfl (.cons ?_ rfl (.cons ?_ rfl (.cons ?_ rfl
      (.cons ?_ rfl (.cons ?_ rfl (.cons ?_ rfl trivial)))))))
    all_goals
      intro _ other ne
      cases other <;> first | exact .inl rfl | exact .inr rfl | exact absurd rfl ne
  obtain ⟨config, reached, blocked⟩ : ∃ config, Reaches (step mainPriority) (start MainTask)
      (replicate 4 MainTask.low ++ replicate 4 MainTask.high) config ∧
        config.points .high = .blocked := ⟨_, ⟨_, rfl⟩, rfl⟩
  exact ⟨config, reached, blocked, (covers_waiters_iff_subsingleton mainPriority
    fun task => by cases task <;> decide).2 _ config reached alone⟩

theorem med_uncovered_after_handover : ∃ config, Reaches (step mainPriority) (start MainTask)
        (replicate 4 MainTask.low ++ replicate 4 MainTask.med ++
          replicate 4 MainTask.high ++ replicate 2 MainTask.low ++
          replicate 3 MainTask.high) config ∧
      config.shared.lock = some .high ∧ config.shared.ownerPriority = 3 ∧
      config.points .med = .blocked ∧ config.shared.highestWaiterPriority < mainPriority .med ∧
      ¬ CoversWaiters mainPriority config := by
  refine ⟨_, ⟨_, rfl⟩, rfl, rfl, rfl, by decide, fun covers => ?_⟩
  exact absurd (covers rfl .med rfl) (by decide)

end BitsAndBytes.PriorityInheritance
