import BitsAndBytes.Interleaving

/-! # Monitors -/

namespace BitsAndBytes.Monitor

open Interleaving OperationRuns Function Option Finset

variable {Thread Data Cond Point Choice : Type*}

inductive Exit (Cond Point : Type*)
  | leave (point : Point)
  | wait (cond : Cond) (point : Point)

inductive Wake (Cond : Type*)
  | nobody
  | signal (cond : Cond)
  | broadcast (cond : Cond)

structure Outcome (Data Cond Point : Type*) where
  data : Data
  wake : Wake Cond
  exit : Exit Cond Point

inductive Place (Cond Point : Type*)
  | outside (point : Point)
  | inside (point : Point)
  | blocked (cond : Cond) (point : Point)
deriving DecidableEq

def Place.point : Place Cond Point → Point
  | outside point | inside point | blocked _ point => point

def Exit.place : Exit Cond Point → Place Cond Point
  | leave point => .outside point
  | wait cond point => .blocked cond point

@[ext]
structure Shared (Thread Data Cond : Type*) where
  mutex : Option Thread
  waiting : Cond → Finset Thread
  data : Data

def start (data : Data) (points : Thread → Point) :
    Config Thread (Shared Thread Data Cond) (Place Cond Point) where
  shared := ⟨none, fun _ => ∅, data⟩
  points := fun t => .outside (points t)

inductive Op (Thread Choice : Type*)
  | thread (t : Thread) (choice : Choice) (woken : Option Thread)
  | spuriousWakeup (t : Thread)

def turn (t : Thread) (choice : Choice) (woken : Option Thread) : List (Op Thread Choice) :=
  [.thread t choice none, .thread t choice woken]

variable {shared : Shared Thread Data Cond} {place : Place Cond Point}
  {config : Config Thread (Shared Thread Data Cond) (Place Cond Point)} {op : Op Thread Choice}
  {out : Unit} {s : Thread}

section

variable [DecidableEq Thread] [DecidableEq Cond]

def Wake.rest (waiting : Cond → Finset Thread) (woken : Option Thread) :
    Wake Cond → Option (Cond → Finset Thread)
  | nobody => some waiting
  | signal cond =>
    (Interleaving.signal (waiting cond) woken).map (update waiting cond)
  | broadcast cond => some (update waiting cond ∅)

def Exit.enqueue (t : Thread) (waiting : Cond → Finset Thread) :
    Exit Cond Point → Cond → Finset Thread
  | leave _ => waiting
  | wait cond _ => update waiting cond (insert t (waiting cond))

def advance (sections : Choice → Point → Data → Outcome Data Cond Point) (t : Thread)
    (choice : Choice) (woken : Option Thread) (shared : Shared Thread Data Cond) :
    Place Cond Point → Option (Shared Thread Data Cond × Place Cond Point)
  | .outside point =>
    if shared.mutex = none then
      some ({ shared with mutex := some t }, .inside point)
    else
      none
  | .blocked cond point =>
    if t ∉ shared.waiting cond ∧ shared.mutex = none then
      some ({ shared with mutex := some t }, .inside point)
    else
      none
  | .inside point =>
    let outcome := sections choice point shared.data
    (outcome.wake.rest shared.waiting woken).map fun rest =>
      (⟨none, outcome.exit.enqueue t rest, outcome.data⟩, outcome.exit.place)

def step (sections : Choice → Point → Data → Outcome Data Cond Point)
    (config : Config Thread (Shared Thread Data Cond) (Place Cond Point)) :
    Op Thread Choice → Option (Config Thread (Shared Thread Data Cond) (Place Cond Point) × Unit)
  | .thread t choice woken =>
    (advance sections t choice woken config.shared (config.points t)).map fun next =>
      (⟨next.1, update config.points t next.2⟩, ())
  | .spuriousWakeup t =>
    some ({ config with
      shared.waiting := fun cond => (config.shared.waiting cond).erase t }, ())

/-- A thread gets the mutex, or executes its section and gives the mutex up. -/
inductive Moves (sections : Choice → Point → Data → Outcome Data Cond Point)
    (t : Thread) (choice : Choice) : Shared Thread Data Cond → Place Cond Point →
      Shared Thread Data Cond → Place Cond Point → Prop
  | enter {shared point} (free : shared.mutex = none) :
      Moves sections t choice shared (.outside point)
        { shared with mutex := some t } (.inside point)
  | wake {shared cond point} (woken : t ∉ shared.waiting cond)
      (free : shared.mutex = none) :
      Moves sections t choice shared (.blocked cond point)
        { shared with mutex := some t } (.inside point)
  | exit {shared point outcome woken rest}
      (executed : sections choice point shared.data = outcome)
      (wakes : outcome.wake.rest shared.waiting woken = some rest) :
      Moves sections t choice shared (.inside point)
        ⟨none, outcome.exit.enqueue t rest, outcome.data⟩ outcome.exit.place

variable {sections : Choice → Point → Data → Outcome Data Cond Point} {t : Thread}
  {choice : Choice}

theorem moves_of_advance {woken : Option Thread} {next : Shared Thread Data Cond}
    {nextPlace : Place Cond Point}
    (advanced : advance sections t choice woken shared place = some (next, nextPlace)) :
    Moves sections t choice shared place next nextPlace := by
  cases place with
  | outside point =>
    rw [advance, ite_none_right_eq_some] at advanced
    obtain ⟨free, ⟨⟩⟩ := advanced
    exact .enter free
  | blocked cond point =>
    rw [advance, ite_none_right_eq_some] at advanced
    obtain ⟨⟨awake, free⟩, ⟨⟩⟩ := advanced
    exact .wake awake free
  | inside point =>
    obtain ⟨rest, wakes, ⟨⟩⟩ := map_eq_some_iff.mp advanced
    exact .exit rfl wakes

theorem step_cases {next : Config Thread (Shared Thread Data Cond) (Place Cond Point)}
    (stepEq : step sections config op = some (next, out)) :
    (∃ t choice shared place, Moves sections t choice config.shared (config.points t) shared place ∧
        next = ⟨shared, update config.points t place⟩) ∨
    ∃ t, next = { config with
      shared.waiting := fun cond => (config.shared.waiting cond).erase t } := by
  cases op with
  | thread t choice woken =>
    obtain ⟨⟨shared, place⟩, advanced, ⟨⟩⟩ := map_eq_some_iff.mp stepEq
    exact .inl ⟨t, choice, shared, place, moves_of_advance advanced, rfl⟩
  | spuriousWakeup t =>
    cases stepEq
    exact .inr ⟨t, rfl⟩

end

section

variable [DecidableEq Thread] [DecidableEq Cond] {waiting rest : Cond → Finset Thread}
  {woken : Option Thread} {t : Thread} {cond : Cond}

theorem Wake.mem_of_mem_rest {wake : Wake Cond}
    (wakes : wake.rest waiting woken = some rest) (waits : t ∈ rest cond) : t ∈ waiting cond := by
  cases wake with
  | nobody =>
    cases wakes
    exact waits
  | signal other =>
    obtain ⟨left, signalled, ⟨⟩⟩ := map_eq_some_iff.mp wakes
    by_cases same : cond = other
    · subst same
      rw [update_self] at waits
      rcases signal_cases signalled with ⟨rfl, -⟩ | ⟨s, -, rfl⟩
      · exact absurd waits (notMem_empty t)
      · exact mem_of_mem_erase waits
    · rwa [update_of_ne same] at waits
  | broadcast other =>
    cases wakes
    by_cases same : cond = other
    · subst same
      rw [update_self] at waits
      exact absurd waits (notMem_empty t)
    · rwa [update_of_ne same] at waits

theorem Wake.exists_woken
    (wakes : (Wake.signal cond).rest waiting woken = some rest)
    (someone : (rest cond).Nonempty) : ∃ s ∈ waiting cond, s ∉ rest cond := by
  obtain ⟨left, signalled, ⟨⟩⟩ := map_eq_some_iff.mp wakes
  rw [update_self] at someone
  rcases signal_cases signalled with ⟨rfl, -⟩ | ⟨s, waits, rfl⟩
  · exact absurd someone not_nonempty_empty
  · refine ⟨s, waits, ?_⟩
    rw [update_self]
    exact notMem_erase s _

theorem Exit.mem_enqueue {exit : Exit Cond Point} (waits : s ∈ exit.enqueue t waiting cond) :
    s ∈ waiting cond ∨ s = t ∧ ∃ point, exit = .wait cond point := by
  cases exit with
  | leave point => exact .inl waits
  | wait other point =>
    rw [enqueue] at waits
    by_cases same : cond = other
    · subst same
      rw [update_self, mem_insert] at waits
      rcases waits with mine | before
      · exact .inr ⟨mine, point, rfl⟩
      · exact .inl before
    · rw [update_of_ne same] at waits
      exact .inl waits

end

section

def isInside : Place Cond Point → Prop
  | .inside _ => True
  | .outside _ | .blocked _ _ => False

/-- The thread inside owns the mutex, and those that wait are blocked. -/
structure Sound (config : Config Thread (Shared Thread Data Cond) (Place Cond Point)) :
    Prop where
  mutex : Locks isInside config.points config.shared.mutex
  blocked : ∀ {t cond}, t ∈ config.shared.waiting cond →
    ∃ point, config.points t = .blocked cond point

theorem sound_start (data : Data) (points : Thread → Point) : Sound (start data points :
      Config Thread (Shared Thread Data Cond) (Place Cond Point)) where
  mutex := fun t => by simp [start, isInside]
  blocked := fun waits => absurd waits (notMem_empty _)

theorem Sound.awake (sound : Sound config) {t : Thread} {point : Point}
    (there : config.points t = .inside point) (cond : Cond) : t ∉ config.shared.waiting cond := by
  intro waits
  obtain ⟨other, blocked⟩ := sound.blocked waits
  rw [there] at blocked
  cases blocked

variable [DecidableEq Thread] [DecidableEq Cond]
  {sections : Choice → Point → Data → Outcome Data Cond Point}
  {config next : Config Thread (Shared Thread Data Cond) (Place Cond Point)}

theorem Sound.moves {t : Thread} {choice : Choice} (sound : Sound config)
    (moved : Moves sections t choice config.shared (config.points t) shared place) :
    Sound ⟨shared, update config.points t place⟩ := by
  have others : ∀ {s cond}, s ∈ config.shared.waiting cond → s ≠ t →
      ∃ point, update config.points t place s = .blocked cond point := by
    intro s cond waits other
    rw [update_of_ne other]
    exact sound.blocked waits
  generalize before : config.points t = previous at moved
  cases moved with
  | enter free =>
    refine ⟨Locks.acquire (free ▸ sound.mutex) trivial, fun waits => ?_⟩
    refine others waits ?_
    rintro rfl
    obtain ⟨point, blocked⟩ := sound.blocked waits
    rw [before] at blocked
    cases blocked
  | wake awake free =>
    refine ⟨Locks.acquire (free ▸ sound.mutex) trivial, fun waits => ?_⟩
    refine others waits ?_
    rintro rfl
    obtain ⟨point, blocked⟩ := sound.blocked waits
    rw [before] at blocked
    cases blocked
    exact awake waits
  | @exit _ outcome _ _ _ wakes =>
    constructor
    · refine sound.mutex.release (by simp [before, isInside]) ?_
      cases outcome.exit <;> exact id
    · intro s cond waits
      rcases Exit.mem_enqueue waits with stillWaits | ⟨rfl, point, exitEq⟩
      · have waited := Wake.mem_of_mem_rest wakes stillWaits
        refine others waited ?_
        rintro rfl
        exact sound.awake before cond waited
      · exact ⟨point, by simp [exitEq, Exit.place]⟩

theorem Sound.step (sound : Sound config)
    (stepEq : Monitor.step sections config op = some (next, out)) : Sound next := by
  rcases step_cases stepEq with ⟨t, choice, shared, place, moved, rfl⟩ | ⟨t, rfl⟩
  · exact sound.moves moved
  · exact ⟨sound.mutex, fun waits => sound.blocked (mem_of_mem_erase waits)⟩

end

section

variable {data : Data} {points : Thread → Point} {schedule : List (Op Thread Choice)}

@[ext]
structure View (Thread Data Cond Point : Type*) where
  data : Data
  waiting : Cond → Finset Thread
  points : Thread → Point

def view (config : Config Thread (Shared Thread Data Cond) (Place Cond Point)) :
    View Thread Data Cond Point where
  data := config.shared.data
  waiting := config.shared.waiting
  points := fun t => (config.points t).point

def View.after [DecidableEq Thread] [DecidableEq Cond]
    (current : View Thread Data Cond Point) (t : Thread)
    (outcome : Outcome Data Cond Point) (rest : Cond → Finset Thread) :
    View Thread Data Cond Point where
  data := outcome.data
  waiting := outcome.exit.enqueue t rest
  points := update current.points t outcome.exit.place.point

variable (current : View Thread Data Cond Point)

@[simp]
theorem View.after_points_self [DecidableEq Thread] [DecidableEq Cond] (t : Thread)
    (outcome : Outcome Data Cond Point) (rest : Cond → Finset Thread) :
    (current.after t outcome rest).points t = outcome.exit.place.point :=
  update_self t _ current.points

theorem View.after_points_of_ne [DecidableEq Thread] [DecidableEq Cond] {t : Thread} (other : s ≠ t)
    (outcome : Outcome Data Cond Point) (rest : Cond → Finset Thread) :
    (current.after t outcome rest).points s = current.points s :=
  update_of_ne other _ current.points

/-- A whole section, or a spurious wakeup. -/
inductive SectionStep [DecidableEq Thread] [DecidableEq Cond]
    (sections : Choice → Point → Data → Outcome Data Cond Point)
    (current : View Thread Data Cond Point) : View Thread Data Cond Point → Prop
  | execute {t choice outcome woken rest}
      (executed : sections choice (current.points t) current.data = outcome)
      (awake : ∀ cond, t ∉ current.waiting cond)
      (wakes : outcome.wake.rest current.waiting woken = some rest) :
      SectionStep sections current (current.after t outcome rest)
  | wakeup (t : Thread) : SectionStep sections current
        { current with waiting := fun cond => (current.waiting cond).erase t }

theorem view_update [DecidableEq Thread] (shared : Shared Thread Data Cond)
    (places : Thread → Place Cond Point) (t : Thread) (place : Place Cond Point) :
    view ⟨shared, update places t place⟩ =
      ⟨shared.data, shared.waiting, update (fun s => (places s).point) t place.point⟩ := by
  simp only [view, apply_update fun _ => Place.point]

variable [DecidableEq Thread] [DecidableEq Cond]
  {sections : Choice → Point → Data → Outcome Data Cond Point}
  {config next : Config Thread (Shared Thread Data Cond) (Place Cond Point)}

theorem view_moves {t : Thread} {choice : Choice} (sound : Sound config)
    (moved : Moves sections t choice config.shared (config.points t) shared place) :
    view ⟨shared, update config.points t place⟩ = view config ∨
      ∃ point outcome woken rest, config.points t = .inside point ∧
        sections choice ((view config).points t) (view config).data = outcome ∧
          (∀ cond, t ∉ (view config).waiting cond) ∧
            outcome.wake.rest (view config).waiting woken = some rest ∧
              view ⟨shared, update config.points t place⟩ = (view config).after t outcome rest := by
  have unmoved : ∀ {point}, (config.points t).point = point →
      update (fun s => (config.points s).point) t point = fun s => (config.points s).point := by
    rintro point rfl
    exact update_eq_self t fun s => (config.points s).point
  rw [view_update]
  generalize before : config.points t = previous at moved
  cases moved with
  | enter free | wake woken free =>
    left
    rw [Place.point, unmoved (by rw [before]; rfl)]
    rfl
  | @exit point outcome woken rest executed wakes =>
    have here : sections choice ((view config).points t) (view config).data =
        outcome := by
      simpa [view, before, Place.point] using executed
    exact .inr ⟨point, outcome, woken, rest, rfl, here, sound.awake before, wakes, rfl⟩

theorem view_step (sound : Sound config)
    (stepEq : Monitor.step sections config op = some (next, out)) :
    view next = view config ∨ SectionStep sections (view config) (view next) := by
  rcases step_cases stepEq with ⟨t, choice, shared, place, moved, rfl⟩ | ⟨t, rfl⟩
  · rcases view_moves sound moved with
      same | ⟨_, outcome, woken, rest, -, executed, awake, wakes, after⟩
    · exact .inl same
    · exact .inr (after ▸ .execute executed awake wakes)
  · exact .inr (.wakeup t)

theorem invariant_of_sections (Inv : View Thread Data Cond Point → Prop)
    (preserved : ∀ {current after}, Inv current → SectionStep sections current after → Inv after)
    (reached : Reaches (step sections) (start data points) schedule config)
    (initially : Inv ⟨data, fun _ => ∅, points⟩) : Sound config ∧ Inv (view config) := by
  refine reached.invariant (fun config => Sound config ∧ Inv (view config)) ?_
    ⟨sound_start data points, initially⟩
  rintro config op next out ⟨sound, inv⟩ stepEq
  refine ⟨sound.step stepEq, ?_⟩
  rcases view_step sound stepEq with same | executed
  · rwa [same]
  · exact preserved inv executed

/-- The section that the step executes meets the condition. -/
def Permits (condition : Choice → Point → Data → Prop)
    (config : Config Thread (Shared Thread Data Cond) (Place Cond Point)) :
    Op Thread Choice → Prop
  | .thread t choice _ =>
    ∀ point, config.points t = .inside point → condition choice point config.shared.data
  | .spuriousWakeup _ => True

instance {condition : Choice → Point → Data → Prop}
    [∀ choice point data, Decidable (condition choice point data)] :
    Decidable (Permits condition config op) :=
  match op with
  | .thread t choice _ =>
    match place : config.points t with
    | .inside point => decidable_of_iff (condition choice point config.shared.data)
        ⟨fun met _ inside => by cases place.symm.trans inside; exact met, fun all => all _ place⟩
    | .outside _ | .blocked _ _ => .isTrue fun _ inside => nomatch place.symm.trans inside
  | .spuriousWakeup _ => .isTrue trivial

theorem guardedInvariant_of_sections (condition : Choice → Point → Data → Prop)
    (Inv : View Thread Data Cond Point → Prop)
    (execute : ∀ {current t choice outcome woken rest}, Inv current →
      condition choice (current.points t) current.data →
      sections choice (current.points t) current.data = outcome →
      (∀ cond, t ∉ current.waiting cond) → outcome.wake.rest current.waiting woken = some rest →
      Inv (current.after t outcome rest))
    (wakeup : ∀ {current} t, Inv current →
      Inv { current with waiting := fun cond => (current.waiting cond).erase t })
    (reached : Reaches (step sections) (start data points) schedule config)
    (permitted : Respects (step sections) (Permits condition) (start data points) schedule)
    (initially : Inv ⟨data, fun _ => ∅, points⟩) : Sound config ∧ Inv (view config) := by
  refine reached.guardedInvariant (fun config => Sound config ∧ Inv (view config)) ?_
    permitted ⟨sound_start data points, initially⟩
  rintro config op next out ⟨sound, inv⟩ permits stepEq
  refine ⟨sound.step stepEq, ?_⟩
  cases op with
  | thread t choice woken =>
    obtain ⟨⟨shared, place⟩, advanced, ⟨⟩⟩ := map_eq_some_iff.mp stepEq
    rcases view_moves sound (moves_of_advance advanced) with
      same | ⟨point, outcome, woken, rest, inside, executed, awake, wakes, after⟩
    · rwa [same]
    · have here : (view config).points t = point := congrArg Place.point inside
      rw [after]
      exact execute inv (here ▸ permits point inside) executed awake wakes
  | spuriousWakeup t =>
    cases stepEq
    exact wakeup t inv

theorem places_of_reaches (good : Place Cond Point → Prop)
    (enters : ∀ {place : Place Cond Point}, good place → good (.inside place.point))
    (exits : ∀ choice point data, good (.inside point) →
      good (sections choice point data).exit.place)
    (reached : Reaches (step sections) (start data points) schedule config)
    (initially : ∀ t, good (.outside (points t))) (t : Thread) : good (config.points t) := by
  refine reached.invariant (fun config => ∀ t, good (config.points t)) ?_ initially t
  intro config op next out allGood stepEq
  rcases step_cases stepEq with ⟨t, choice, shared, place, moved, rfl⟩ | ⟨t, rfl⟩
  · refine (forall_update_iff config.points fun _ => good).mpr ⟨?_, fun s _ => allGood s⟩
    have before := allGood t
    generalize config.points t = previous at moved before
    cases moved with
    | enter free | wake woken free => exact enters before
    | exit executed wakes => exact executed ▸ exits choice _ _ before
  · exact allGood

end

end BitsAndBytes.Monitor
