import BitsAndBytes.CheckedArray
import BitsAndBytes.ForLoop
import BitsAndBytes.OperationRuns

/-! # Loops of several threads over one array -/

namespace BitsAndBytes.ParallelLoops

open CheckedArray ForLoop OperationRuns List Function Option

variable {Thread Value : Type} [DecidableEq Thread]

structure Loop where
  start : Nat
  stop : Nat
  stride : Nat

def Loop.indices (loop : Loop) : List Nat := values loop.start loop.stop loop.stride

structure Program (Thread Value : Type) where
  size : Nat
  limit : Nat
  loop : Thread → Loop
  input : Nat → Value
  compute : Value → Value

structure State (Thread Value : Type) where
  position : Thread → Nat
  output : Nat → Value
  processed : List (Thread × Nat)

namespace Program

def initial (program : Program Thread Value) (output : Nat → Value) : State Thread Value :=
  ⟨fun thread => (program.loop thread).start, output, []⟩

def step (program : Program Thread Value) (state : State Thread Value) (thread : Thread) :
    Option (State Thread Value × Unit) :=
  let index := state.position thread
  let next := index + (program.loop thread).stride
  if index < (program.loop thread).stop then do
    let value ← CheckedArray.read program.size program.input index
    let output ← write program.size state.output index (program.compute value)
    if next ≤ program.limit then
      some (⟨update state.position thread next, output, state.processed ++ [(thread, index)]⟩, ())
    else
      none
  else
    some (state, ())

def Finished (program : Program Thread Value) (state : State Thread Value) : Prop :=
  ∀ thread, (program.loop thread).stop ≤ state.position thread

/-- Under every schedule each index of the array is processed once. -/
def ProcessesEachIndexOnce (program : Program Thread Value) (output : Nat → Value) : Prop :=
  ∀ schedule, ∃ state, Reaches program.step (program.initial output) schedule state ∧
    (state.processed.map Prod.snd).Nodup ∧ (∀ entry ∈ state.processed, entry.2 < program.size) ∧
    ((∀ thread, program.size ≤ schedule.count thread) → program.Finished state) ∧
    (program.Finished state → (state.processed.map Prod.snd).Perm (range program.size) ∧
      ∀ index, state.output index =
        if index < program.size then program.compute (program.input index) else output index)

/-- The loops of the threads divide the indices of the array. -/
structure Divides (program : Program Thread Value) (owner : Nat → Thread) : Prop where
  stride_pos : ∀ thread, 0 < (program.loop thread).stride
  stop_le : ∀ thread, (program.loop thread).stop ≤ program.size
  mem_indices : ∀ thread index,
    index ∈ (program.loop thread).indices ↔ index < program.size ∧ owner index = thread

variable {program : Program Thread Value} {state next : State Thread Value} {thread : Thread}
  {schedule : List Thread} {owner : Nat → Thread} {output : Nat → Value}

theorem step_cases (stepEq : program.step state thread = some (next, ())) :
    (program.loop thread).stop ≤ state.position thread ∧ next = state ∨
      state.position thread < (program.loop thread).stop ∧
      state.position thread + (program.loop thread).stride ≤ program.limit ∧
      next = ⟨update state.position thread (state.position thread + (program.loop thread).stride),
        update state.output (state.position thread)
          (program.compute (program.input (state.position thread))),
        state.processed ++ [(thread, state.position thread)]⟩ := by
  simp only [step, CheckedArray.read, write] at stepEq
  split at stepEq
  · rename_i goesOn
    split at stepEq
    · simp only [bind_eq_bind, bind_some, ite_none_right_eq_some] at stepEq
      obtain ⟨within, stepEq⟩ := stepEq
      cases stepEq
      exact .inr ⟨goesOn, within, rfl⟩
    · cases stepEq
  · rename_i ended
    cases stepEq
    exact .inl ⟨Nat.le_of_not_lt ended, rfl⟩

def indicesOf (state : State Thread Value) (thread : Thread) : List Nat :=
  (state.processed.filter fun entry => entry.1 = thread).map Prod.snd

/-- Every thread has processed the indices before its position. -/
structure Invariant (program : Program Thread Value) (output : Nat → Value)
    (state : State Thread Value) : Prop where
  indices_eq : ∀ thread, indicesOf state thread ++ values (state.position thread)
    (program.loop thread).stop (program.loop thread).stride = (program.loop thread).indices
  advanced : ∀ entry ∈ state.processed, entry.2 + (program.loop entry.1).stride ≤ program.limit
  output_eq : ∀ index, state.output index = if index ∈ state.processed.map Prod.snd then
    program.compute (program.input index) else output index

theorem invariant_initial (program : Program Thread Value) (output : Nat → Value) :
    program.Invariant output (program.initial output) :=
  ⟨fun _ => rfl, nofun, fun _ => rfl⟩

theorem Invariant.step (invariant : program.Invariant output state)
    (stride_pos : ∀ thread, 0 < (program.loop thread).stride)
    (stepEq : program.step state thread = some (next, ())) : program.Invariant output next := by
  obtain ⟨-, rfl⟩ | ⟨goesOn, within, rfl⟩ := step_cases stepEq
  · exact invariant
  refine ⟨fun other => ?_, fun entry member => ?_, fun index => ?_⟩
  · rw [← invariant.indices_eq other]
    by_cases same : other = thread
    · subst same
      simp [indicesOf, values_of_lt (stride_pos other) goesOn]
    · simp [indicesOf, same, Ne.symm same]
  · rcases mem_append.mp member with earlier | now
    · exact invariant.advanced entry earlier
    · rw [mem_singleton.mp now]
      exact within
  · by_cases same : index = state.position thread
    · subst same
      simp
    · simp only [update_of_ne same, invariant.output_eq index, map_append,
        map_singleton, mem_append, mem_singleton, same, or_false]

theorem Invariant.of_reaches (stride_pos : ∀ thread, 0 < (program.loop thread).stride)
    (reached : Reaches program.step (program.initial output) schedule state) :
    program.Invariant output state :=
  reached.invariant (program.Invariant output)
    (fun invariant stepEq => invariant.step stride_pos stepEq) (invariant_initial program output)

section

variable (invariant : program.Invariant output state)
include invariant

theorem Invariant.mem_indices {index : Nat}
    (member : (thread, index) ∈ state.processed) : index ∈ (program.loop thread).indices := by
  rw [← invariant.indices_eq thread]
  exact mem_append_left _ (mem_map.mpr ⟨_, mem_filter.mpr ⟨member, by simp⟩, rfl⟩)

theorem Invariant.nodup
    (divides : program.Divides owner) : (state.processed.map Prod.snd).Nodup := by
  have owned : ∀ entry ∈ state.processed, entry.1 = owner entry.2 := fun entry member =>
    ((divides.mem_indices _ _).mp (invariant.mem_indices member)).2.symm
  have entries : state.processed.Nodup := by
    refine nodup_iff_count_le_one.mpr fun entry => ?_
    have indices : (program.loop entry.1).indices.Nodup :=
      nodup_range' _ (divides.stride_pos entry.1)
    rw [← invariant.indices_eq] at indices
    calc
      state.processed.count entry =
          (state.processed.filter fun other => other.1 = entry.1).count entry :=
        (count_filter (by simp)).symm
      _ ≤ (indicesOf state entry.1).count entry.2 := count_le_count_map
      _ ≤ 1 := nodup_iff_count_le_one.mp indices.of_append_left entry.2
  have injective : ∀ entry ∈ state.processed, ∀ other ∈ state.processed,
      entry.2 = other.2 → entry = other := by
    intro entry member other otherMember same
    refine Prod.ext ?_ same
    rw [owned entry member, owned other otherMember, same]
  exact entries.map_on injective

theorem Invariant.mem_of_finished
    (ended : (program.loop thread).stop ≤ state.position thread) {index : Nat}
    (member : index ∈ (program.loop thread).indices) : (thread, index) ∈ state.processed := by
  rw [← invariant.indices_eq thread, values_of_le ended, append_nil] at member
  obtain ⟨⟨other, same⟩, kept, rfl⟩ := mem_map.mp member
  obtain ⟨processed, isThread⟩ := mem_filter.mp kept
  rw [← of_decide_eq_true isThread]
  exact processed

end

theorem turns_of_reaches (stride_pos : ∀ thread, 0 < (program.loop thread).stride)
    (reached : Reaches program.step state schedule next) (thread : Thread) :
    (program.loop thread).stop ≤ next.position thread ∨
      state.position thread + schedule.count thread ≤ next.position thread := by
  induction schedule generalizing state with
  | nil =>
    rw [reaches_nil.mp reached]
    exact .inr (Nat.le_refl _)
  | cons first schedule ih =>
    obtain ⟨middle, ⟨⟩, stepEq, rest⟩ := reaches_cons.mp reached
    rcases ih rest with ended | turns
    · exact .inl ended
    obtain ⟨ended, rfl⟩ | ⟨-, -, rfl⟩ := step_cases stepEq
    · by_cases same : first = thread
      · subst same
        exact .inl (by omega)
      · rw [count_cons_of_ne same]
        exact .inr turns
    · right
      by_cases same : first = thread
      · subst same
        have positive := stride_pos first
        simp only [update_self] at turns
        rw [count_cons_self]
        omega
      · rw [count_cons_of_ne same]
        simpa only [update_of_ne (Ne.symm same)] using turns

theorem Invariant.exists_step (invariant : program.Invariant output state)
    (divides : program.Divides owner)
    (within : ∀ thread, ∀ index ∈ (program.loop thread).indices,
      index + (program.loop thread).stride ≤ program.limit) (thread : Thread) :
    ∃ next, program.step state thread = some (next, ()) := by
  by_cases goesOn : state.position thread < (program.loop thread).stop
  · have member : state.position thread ∈ (program.loop thread).indices := by
      rw [← invariant.indices_eq thread, values_of_lt (divides.stride_pos thread) goesOn]
      exact mem_append_right _ mem_cons_self
    have inside := ((divides.mem_indices _ _).mp member).1
    simp [Program.step, goesOn, CheckedArray.read, write, inside, within thread _ member]
  · exact ⟨state, if_neg goesOn⟩

theorem exists_reaches (divides : program.Divides owner)
    (within : ∀ thread, ∀ index ∈ (program.loop thread).indices,
      index + (program.loop thread).stride ≤ program.limit)
    (output : Nat → Value) (schedule : List Thread) :
    ∃ state, Reaches program.step (program.initial output) schedule state := by
  have unguarded : Respects program.step (fun _ _ => True) (program.initial output) schedule :=
    respects_of_forall (fun _ _ => trivial) _ _
  obtain ⟨state, reached, -⟩ := unguarded.exists_reaches (program.Invariant output)
    (fun {state thread} invariant _ => by
      obtain ⟨next, stepEq⟩ := invariant.exists_step divides within thread
      exact ⟨next, (), stepEq, invariant.step divides.stride_pos stepEq⟩)
    (invariant_initial program output)
  exact ⟨state, reached⟩

theorem Divides.processesEachIndexOnce (divides : program.Divides owner)
    (within : ∀ thread, ∀ index ∈ (program.loop thread).indices,
      index + (program.loop thread).stride ≤ program.limit)
    (output : Nat → Value) : program.ProcessesEachIndexOnce output := by
  intro schedule
  obtain ⟨state, reached⟩ := exists_reaches divides within output schedule
  have invariant := Invariant.of_reaches divides.stride_pos reached
  have nodup := invariant.nodup divides
  have inside : ∀ entry ∈ state.processed, entry.2 < program.size := fun entry member =>
    ((divides.mem_indices _ _).mp (invariant.mem_indices member)).1
  refine ⟨state, reached, nodup, inside, fun turns thread => ?_, fun finished => ?_⟩
  · have enough := turns thread
    have bound := divides.stop_le thread
    rcases turns_of_reaches divides.stride_pos reached thread with ended | gone
    · exact ended
    · omega
  · have mem_processed : ∀ index, index ∈ state.processed.map Prod.snd ↔ index < program.size := by
      intro index
      refine ⟨fun member => ?_, fun isInside => ?_⟩
      · obtain ⟨entry, processed, rfl⟩ := mem_map.mp member
        exact inside entry processed
      · refine mem_map.mpr ⟨(owner index, index), ?_, rfl⟩
        exact invariant.mem_of_finished (finished _)
          ((divides.mem_indices _ _).mpr ⟨isInside, rfl⟩)
    refine ⟨(perm_ext_iff_of_nodup nodup nodup_range).mpr fun index => ?_, fun index => ?_⟩
    · rw [mem_processed, mem_range]
    · rw [invariant.output_eq, if_congr (mem_processed index) rfl rfl]

theorem ProcessesEachIndexOnce.within (once : program.ProcessesEachIndexOnce output)
    (divides : program.Divides owner) {index : Nat}
    (member : index ∈ (program.loop thread).indices) :
    index + (program.loop thread).stride ≤ program.limit := by
  obtain ⟨state, reached, -⟩ := once (replicate program.size thread)
  have invariant := Invariant.of_reaches divides.stride_pos reached
  have ended : (program.loop thread).stop ≤ state.position thread := by
    have bound := divides.stop_le thread
    rcases turns_of_reaches divides.stride_pos reached thread with ended | gone
    · exact ended
    · rw [count_replicate_self] at gone
      omega
  exact invariant.advanced _ (invariant.mem_of_finished ended member)

end Program

end BitsAndBytes.ParallelLoops
