import BitsAndBytes.OperationRuns

/-! # Loops -/

namespace BitsAndBytes.WhileLoop

open OperationRuns List Option

variable {State Out : Type*}

def iteration (test : State → Bool) (body : State → Option (State × Out)) (state : State)
    (_ : Unit) : Option (State × Out) :=
  if test state then body state else none

/-- The loop comes to `state`, its iterations having returned `outs`. -/
def Iterates (test : State → Bool) (body : State → Option (State × Out)) (start : State)
    (outs : List Out) (state : State) : Prop :=
  run (iteration test body) start (replicate outs.length ()) = some (state, outs)

/-- The loop comes to `finish`, where its test fails. -/
def Ends (test : State → Bool) (body : State → Option (State × Out)) (start : State)
    (outs : List Out) (finish : State) : Prop :=
  Iterates test body start outs finish ∧ test finish = false

variable {test : State → Bool} {body : State → Option (State × Out)}
  {start state next finish : State} {out : Out} {outs past future : List Out}

theorem iterates_nil : Iterates test body start [] start := rfl

theorem Iterates.eq_of_nil (iterates : Iterates test body start [] state) : state = start := by
  rw [Iterates, length_nil, replicate_zero, run_nil, some.injEq, Prod.mk.injEq] at iterates
  exact iterates.1.symm

theorem iteration_eq_some {op : Unit} : iteration test body state op = some (next, out) ↔
      test state ∧ body state = some (next, out) := by
  rw [iteration, ite_none_right_eq_some]

theorem iterates_cons : Iterates test body start (out :: outs) finish ↔
      ∃ next, test start ∧ body start = some (next, out) ∧ Iterates test body next outs finish := by
  rw [Iterates, length_cons, replicate_succ, run_cons_eq_some]
  constructor
  · rintro ⟨next, result, rest, iterated, restRun, same⟩
    obtain ⟨rfl, rfl⟩ := cons.inj same
    exact ⟨next, (iteration_eq_some.mp iterated).1, (iteration_eq_some.mp iterated).2, restRun⟩
  · rintro ⟨next, tested, executed, restRun⟩
    exact ⟨next, out, outs, iteration_eq_some.mpr ⟨tested, executed⟩, restRun, rfl⟩

theorem iterates_append : Iterates test body start (past ++ future) finish ↔
      ∃ state, Iterates test body start past state ∧ Iterates test body state future finish := by
  induction past generalizing start with
  | nil =>
    constructor
    · intro iterates
      exact ⟨start, iterates_nil, iterates⟩
    · rintro ⟨state, first, iterates⟩
      rwa [first.eq_of_nil] at iterates
  | cons out past ih =>
    simp only [cons_append, iterates_cons, ih]
    constructor
    · rintro ⟨next, tested, executed, state, first, last⟩
      exact ⟨state, ⟨next, tested, executed, first⟩, last⟩
    · rintro ⟨state, ⟨next, tested, executed, first⟩, last⟩
      exact ⟨next, tested, executed, state, first, last⟩

theorem Iterates.invariant (Inv : State → List Out → Prop)
    (preserved : ∀ {state past next out}, Inv state past → test state →
      body state = some (next, out) → Inv next (past ++ [out]))
    (iterates : Iterates test body start outs finish) (initially : Inv start []) :
    Inv finish outs := by
  refine run_results Inv (fun inv iterated => ?_) iterates initially
  obtain ⟨tested, executed⟩ := iteration_eq_some.mp iterated
  exact preserved inv tested executed

theorem Iterates.mono {weaker : State → Bool}
    (implies : ∀ {state}, test state → weaker state)
    (iterates : Iterates test body start outs finish) :
    Iterates weaker body start outs finish := by
  induction outs generalizing start with
  | nil => exact iterates
  | cons out outs ih =>
    obtain ⟨next, tested, executed, rest⟩ := iterates_cons.mp iterates
    exact iterates_cons.mpr ⟨next, implies tested, executed, ih rest⟩

theorem Iterates.simulated {Other : Type*} {otherTest : Other → Bool}
    {otherBody : Other → Option (Other × Out)} (Related : State → Other → Prop)
    (sameTest : ∀ {state other}, Related state other → otherTest other = test state)
    (sameBody : ∀ {state other next out}, Related state other → body state = some (next, out) →
      ∃ otherNext, otherBody other = some (otherNext, out) ∧ Related next otherNext)
    (iterates : Iterates test body start outs finish) {other : Other}
    (related : Related start other) :
    ∃ otherFinish, Iterates otherTest otherBody other outs otherFinish ∧
      Related finish otherFinish := by
  induction outs generalizing start other with
  | nil =>
    rw [iterates.eq_of_nil]
    exact ⟨other, iterates_nil, related⟩
  | cons out outs ih =>
    obtain ⟨next, tested, executed, rest⟩ := iterates_cons.mp iterates
    obtain ⟨otherNext, otherExecuted, nextRelated⟩ := sameBody related executed
    obtain ⟨otherFinish, otherRest, finishRelated⟩ := ih rest nextRelated
    refine ⟨otherFinish, iterates_cons.mpr ⟨otherNext, ?_, otherExecuted, otherRest⟩, finishRelated⟩
    rw [sameTest related, tested]

theorem exists_ends_iff_of_stop (stopped : test start = false) :
    (∃ outs, Ends test body start outs finish) ↔ finish = start := by
  constructor
  · rintro ⟨outs, iterates, -⟩
    cases outs with
    | nil => exact iterates.eq_of_nil
    | cons out outs =>
      obtain ⟨next, tested, -⟩ := iterates_cons.mp iterates
      exact absurd tested (by simp [stopped])
  · rintro rfl
    exact ⟨[], iterates_nil, stopped⟩

theorem exists_ends_iff_of_iteration (tested : test start)
    (executed : body start = some (next, out)) :
    (∃ outs, Ends test body start outs finish) ↔ ∃ outs, Ends test body next outs finish := by
  constructor
  · rintro ⟨outs, iterates, ended⟩
    cases outs with
    | nil =>
      rw [iterates.eq_of_nil, tested] at ended
      exact absurd ended (by decide)
    | cons first outs =>
      obtain ⟨other, -, otherExecuted, rest⟩ := iterates_cons.mp iterates
      rw [executed, some.injEq, Prod.mk.injEq] at otherExecuted
      exact ⟨outs, otherExecuted.1 ▸ rest, ended⟩
  · rintro ⟨outs, iterates, ended⟩
    exact ⟨out :: outs, iterates_cons.mpr ⟨next, tested, executed, iterates⟩, ended⟩

theorem exists_ends (Inv : State → List Out → Prop) (potential : State → List Out → Nat)
    (progress : ∀ {state past}, Inv state past → test state →
      ∃ next out, body state = some (next, out) ∧ Inv next (past ++ [out]) ∧
        potential next (past ++ [out]) < potential state past)
    (initially : Inv start []) :
    ∃ outs finish, Ends test body start outs finish ∧ Inv finish outs := by
  suffices general : ∀ {state past}, Inv state past →
      ∃ outs finish, Ends test body state outs finish ∧ Inv finish (past ++ outs) by
    simpa using general initially
  intro state past inv
  induction size : potential state past using Nat.strong_induction_on generalizing state past with
  | _ size ih =>
    cases tested : test state with
    | false => exact ⟨[], state, ⟨iterates_nil, tested⟩, by simpa using inv⟩
    | true =>
      obtain ⟨next, out, executed, kept, smaller⟩ := progress inv tested
      obtain ⟨outs, finish, ⟨iterates, ended⟩, last⟩ := ih _ (size ▸ smaller) kept rfl
      refine ⟨out :: outs, finish, ⟨?_, ended⟩, by simpa using last⟩
      exact iterates_cons.mpr ⟨next, tested, executed, iterates⟩

end BitsAndBytes.WhileLoop
