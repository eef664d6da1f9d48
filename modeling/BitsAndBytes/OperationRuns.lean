import Mathlib.Data.List.Infix

/-! # Runs of partial operations -/

namespace BitsAndBytes.OperationRuns

open List Option

variable {State Op Out : Type*}

def run (step : State → Op → Option (State × Out)) : State → List Op → Option (State × List Out)
  | start, [] => some (start, [])
  | start, op :: ops =>
    (step start op).bind fun next =>
      (run step next.1 ops).map fun last => (last.1, next.2 :: last.2)

/-- The operations all return, and lead from `start` to `finish`. -/
def Reaches (step : State → Op → Option (State × Out))
    (start : State) (ops : List Op) (finish : State) : Prop :=
  ∃ outs, run step start ops = some (finish, outs)

/-- Every operation of the run meets the guard in the state in which it begins. -/
def Respects (step : State → Op → Option (State × Out))
    (guard : State → Op → Prop) : State → List Op → Prop
  | _, [] => True
  | start, op :: ops =>
    guard start op ∧ ∀ next out, step start op = some (next, out) → Respects step guard next ops

variable {step : State → Op → Option (State × Out)}
variable {start finish : State} {op : Op} {ops : List Op} {out : Out} {outs : List Out}
  {guard : State → Op → Prop}

@[simp]
theorem run_nil (start : State) : run step start [] = some (start, []) := rfl

theorem run_cons_eq_some : run step start (op :: ops) = some (finish, outs) ↔
      ∃ next out rest, step start op = some (next, out) ∧
        run step next ops = some (finish, rest) ∧ outs = out :: rest := by
  simp only [run, bind_eq_some_iff, map_eq_some_iff, Prod.exists, Prod.mk.injEq]
  constructor
  · rintro ⟨next, out, stepEq, last, rest, runEq, rfl, rfl⟩
    exact ⟨next, out, rest, stepEq, runEq, rfl⟩
  · rintro ⟨next, out, rest, stepEq, runEq, rfl⟩
    exact ⟨next, out, stepEq, finish, rest, runEq, rfl, rfl⟩

variable {middle : State} {first second : List Op}

theorem run_concat (runEq : run step start ops = some (middle, outs))
    (stepEq : step middle op = some (finish, out)) :
    run step start (ops ++ [op]) = some (finish, outs ++ [out]) := by
  induction ops generalizing start outs with
  | nil =>
    cases runEq
    exact run_cons_eq_some.mpr ⟨finish, out, [], stepEq, rfl, rfl⟩
  | cons first ops ih =>
    obtain ⟨next, result, rest, firstEq, restEq, rfl⟩ := run_cons_eq_some.mp runEq
    exact run_cons_eq_some.mpr ⟨next, result, _, firstEq, ih restEq, rfl⟩

theorem exists_run (total : ∀ state op, ∃ next out,
      step state op = some (next, out)) (start : State) (ops : List Op) :
    ∃ finish outs, run step start ops = some (finish, outs) := by
  induction ops generalizing start with
  | nil => exact ⟨start, [], rfl⟩
  | cons op ops ih =>
    obtain ⟨next, out, stepEq⟩ := total start op
    obtain ⟨finish, outs, runEq⟩ := ih next
    exact ⟨finish, out :: outs, run_cons_eq_some.mpr ⟨next, out, outs, stepEq, runEq, rfl⟩⟩

theorem length_of_run (runEq : run step start ops = some (finish, outs)) :
    ops.length = outs.length := by
  induction ops generalizing start outs with
  | nil =>
    cases runEq
    rfl
  | cons op ops ih =>
    obtain ⟨next, out, rest, -, restEq, rfl⟩ := run_cons_eq_some.mp runEq
    rw [length_cons, length_cons, ih restEq]

@[simp]
theorem reaches_nil : Reaches step start [] finish ↔ finish = start := by
  simp [Reaches, eq_comm]

theorem reaches_cons : Reaches step start (op :: ops) finish ↔
      ∃ next out, step start op = some (next, out) ∧ Reaches step next ops finish := by
  constructor
  · rintro ⟨outs, runEq⟩
    obtain ⟨next, out, rest, stepEq, restEq, -⟩ := run_cons_eq_some.mp runEq
    exact ⟨next, out, stepEq, rest, restEq⟩
  · rintro ⟨next, out, stepEq, rest, restEq⟩
    exact ⟨out :: rest, run_cons_eq_some.mpr ⟨next, out, rest, stepEq, restEq, rfl⟩⟩

theorem reaches_append : Reaches step start (first ++ second) finish ↔
      ∃ middle, Reaches step start first middle ∧ Reaches step middle second finish := by
  induction first generalizing start with
  | nil => simp
  | cons op first ih =>
    simp only [cons_append, reaches_cons, ih]
    constructor
    · rintro ⟨next, out, stepEq, middle, firstRun, secondRun⟩
      exact ⟨middle, ⟨next, out, stepEq, firstRun⟩, secondRun⟩
    · rintro ⟨middle, ⟨next, out, stepEq, firstRun⟩, secondRun⟩
      exact ⟨next, out, stepEq, middle, firstRun, secondRun⟩

theorem Reaches.unique {other : State} (reached : Reaches step start ops finish)
    (otherReached : Reaches step start ops other) : finish = other := by
  obtain ⟨outs, runEq⟩ := reached
  obtain ⟨otherOuts, otherEq⟩ := otherReached
  cases runEq.symm.trans otherEq
  rfl

theorem reaches_range (states : Nat → State) (ops : Nat → Op) {count : Nat}
    (steps : ∀ index < count, ∃ out,
      step (states index) (ops index) = some (states (index + 1), out)) :
    Reaches step (states 0) ((List.range count).map ops) (states count) := by
  induction count with
  | zero => simp
  | succ count ih =>
    rw [range_succ, map_append, reaches_append]
    obtain ⟨out, stepEq⟩ := steps count (by omega)
    refine ⟨states count, ih fun index indexLt => steps index (by omega), ?_⟩
    exact reaches_cons.mpr ⟨_, out, stepEq, reaches_nil.mpr rfl⟩

theorem Reaches.history (Inv : List Op → State → Prop)
    (preserved : ∀ {past state op next out}, Inv past state → step state op = some (next, out) →
      Inv (past ++ [op]) next)
    {past : List Op} (reached : Reaches step start ops finish)
    (initially : Inv past start) : Inv (past ++ ops) finish := by
  induction ops generalizing start past with
  | nil =>
    rw [reaches_nil.mp reached, append_nil]
    exact initially
  | cons op ops ih =>
    obtain ⟨next, out, stepEq, rest⟩ := reaches_cons.mp reached
    rw [append_cons]
    exact ih rest (preserved initially stepEq)

theorem Reaches.guardedInvariant (Inv : State → Prop)
    (preserved : ∀ {state op next out}, Inv state → guard state op →
      step state op = some (next, out) → Inv next)
    (reached : Reaches step start ops finish) (respected : Respects step guard start ops)
    (initially : Inv start) : Inv finish := by
  induction ops generalizing start with
  | nil =>
    rw [reaches_nil.mp reached]
    exact initially
  | cons op ops ih =>
    obtain ⟨next, out, stepEq, rest⟩ := reaches_cons.mp reached
    exact ih rest (respected.2 next out stepEq) (preserved initially respected.1 stepEq)

theorem Respects.exists_reaches_foldl {Abstract : Type*} (Rel : State → Abstract → Prop)
    (advance : Abstract → Op → Abstract)
    (progress : ∀ {state abstract op}, Rel state abstract → guard state op →
      ∃ next out, step state op = some (next, out) ∧ Rel next (advance abstract op))
    (respected : Respects step guard start ops) (abstract : Abstract)
    (initially : Rel start abstract) :
    ∃ finish, Reaches step start ops finish ∧ Rel finish (ops.foldl advance abstract) := by
  induction ops generalizing start abstract with
  | nil => exact ⟨start, reaches_nil.mpr rfl, initially⟩
  | cons op ops ih =>
    obtain ⟨next, out, stepEq, kept⟩ := progress initially respected.1
    obtain ⟨finish, reached, last⟩ := ih (respected.2 next out stepEq) _ kept
    exact ⟨finish, reaches_cons.mpr ⟨next, out, stepEq, reached⟩, last⟩

theorem Respects.exists_reaches (Inv : State → Prop)
    (progress : ∀ {state op}, Inv state → guard state op →
      ∃ next out, step state op = some (next, out) ∧ Inv next)
    (respected : Respects step guard start ops) (initially : Inv start) :
    ∃ finish, Reaches step start ops finish ∧ Inv finish :=
  respected.exists_reaches_foldl (fun state (_ : Unit) => Inv state) (fun _ _ => ())
    (fun kept met => progress kept met) () initially

theorem Respects.cons {next : State} (met : guard start op)
    (stepEq : step start op = some (next, out)) (respected : Respects step guard next ops) :
    Respects step guard start (op :: ops) := by
  refine ⟨met, fun other otherOut otherEq => ?_⟩
  cases stepEq.symm.trans otherEq
  exact respected

instance decidableRespects [∀ state op, Decidable (guard state op)] :
    ∀ (start : State) (ops : List Op), Decidable (Respects step guard start ops)
  | _, [] => .isTrue trivial
  | start, op :: ops =>
    match stepEq : step start op with
    | none => decidable_of_iff (guard start op)
        ⟨fun met => ⟨met, fun _ _ returned => nomatch stepEq.symm.trans returned⟩, And.left⟩
    | some (next, _) => @decidable_of_iff _ (guard start op ∧ Respects step guard next ops)
        ⟨fun both => .cons both.1 stepEq both.2, fun both => ⟨both.1, both.2 _ _ stepEq⟩⟩
        (@instDecidableAnd _ _ _ (decidableRespects next ops))

theorem respects_of_mem (start : State) (each : ∀ op ∈ ops, ∀ state, guard state op) :
    Respects step guard start ops := by
  induction ops generalizing start with
  | nil => trivial
  | cons op ops ih =>
    refine ⟨each op mem_cons_self start, fun next _ _ => ih next fun other member => ?_⟩
    exact each other (mem_cons_of_mem op member)

theorem respects_of_forall (always : ∀ state op, guard state op) (start : State) (ops : List Op) :
    Respects step guard start ops :=
  respects_of_mem start fun op _ state => always state op

theorem Reaches.invariant (Inv : State → Prop)
    (preserved : ∀ {state op next out}, Inv state → step state op = some (next, out) → Inv next)
    (reached : Reaches step start ops finish) (initially : Inv start) : Inv finish :=
  reached.guardedInvariant Inv (fun inv _ => preserved inv)
    (respects_of_forall (fun _ _ => trivial) start ops) initially

theorem respects_congr {other : State → Op → Prop}
    (same : ∀ state op, guard state op ↔ other state op) (start : State) (ops : List Op) :
    Respects step guard start ops ↔ Respects step other start ops := by
  induction ops generalizing start with
  | nil => exact Iff.rfl
  | cons op ops ih => simp only [Respects, same, ih]

theorem Respects.of_prefix {initialOps : List Op}
    (respected : Respects step guard start ops) (isInitial : initialOps <+: ops) :
    Respects step guard start initialOps := by
  induction initialOps generalizing start ops with
  | nil => trivial
  | cons op initialOps ih =>
    obtain ⟨rest, rfl⟩ := isInitial
    refine ⟨respected.1, fun next out stepEq => ?_⟩
    exact ih (respected.2 next out stepEq) (prefix_append initialOps rest)

theorem Respects.append (respected : Respects step guard start first)
    (behind : ∀ middle, Reaches step start first middle → Respects step guard middle second) :
    Respects step guard start (first ++ second) := by
  induction first generalizing start with
  | nil => exact behind start (reaches_nil.mpr rfl)
  | cons op first ih =>
    refine ⟨respected.1, fun next out stepEq => ih (respected.2 next out stepEq) ?_⟩
    intro middle reached
    exact behind middle (reaches_cons.mpr ⟨next, out, stepEq, reached⟩)

theorem Respects.of_append (respected : Respects step guard start (first ++ second))
    (reached : Reaches step start first middle) : Respects step guard middle second := by
  induction first generalizing start with
  | nil =>
    rw [reaches_nil.mp reached]
    exact respected
  | cons op first ih =>
    obtain ⟨next, out, stepEq, rest⟩ := reaches_cons.mp reached
    exact ih (respected.2 next out stepEq) rest

theorem always_iff_respects (Inv Good : State → Prop)
    (good_of_inv : ∀ {state}, Inv state → Good state)
    (preserved : ∀ {state op next out}, Inv state → guard state op →
      step state op = some (next, out) → Inv next)
    (broken : ∀ {state op}, Inv state → ¬ guard state op →
      ∃ next out, step state op = some (next, out) ∧ ¬ Good next)
    (initially : Inv start) (ops : List Op) :
    (∀ initialOps, initialOps <+: ops → ∀ reached,
        Reaches step start initialOps reached → Good reached) ↔
      Respects step guard start ops := by
  constructor
  · intro always
    induction ops generalizing start with
    | nil => trivial
    | cons op ops ih =>
      have guarded : guard start op := by
        by_contra unguarded
        obtain ⟨next, out, stepEq, bad⟩ := broken initially unguarded
        exact bad (always [op] ⟨ops, rfl⟩ next (reaches_cons.mpr ⟨next, out, stepEq, by simp⟩))
      refine ⟨guarded, fun next out stepEq => ?_⟩
      refine ih (preserved initially guarded stepEq) ?_
      intro initialOps isInitial reached run
      exact always (op :: initialOps)
        (prefix_cons_inj op |>.mpr isInitial) reached
        (reaches_cons.mpr ⟨next, out, stepEq, run⟩)
  · intro respected initialOps isInitial reached run
    exact good_of_inv (run.guardedInvariant Inv preserved (respected.of_prefix isInitial) initially)

theorem returns_always_iff_respects (Inv Good : State → Prop)
    (good_of_inv : ∀ {state}, Inv state → Good state)
    (progress : ∀ {state op}, Inv state → guard state op →
      ∃ next out, step state op = some (next, out) ∧ Inv next)
    (broken : ∀ {state op next out}, Inv state → ¬ guard state op →
      step state op = some (next, out) → ¬ Good next)
    (initially : Inv start) (ops : List Op) :
    (∀ initialOps, initialOps <+: ops → ∃ reached,
        Reaches step start initialOps reached ∧ Good reached) ↔
      Respects step guard start ops := by
  constructor
  · intro always
    induction ops generalizing start with
    | nil => trivial
    | cons op ops ih =>
      have guarded : guard start op := by
        by_contra unguarded
        obtain ⟨reached, run, good⟩ := always [op] ⟨ops, rfl⟩
        obtain ⟨next, out, stepEq, rest⟩ := reaches_cons.mp run
        rw [reaches_nil.mp rest] at good
        exact broken initially unguarded stepEq good
      obtain ⟨next, out, stepEq, kept⟩ := progress initially guarded
      refine ⟨guarded, fun other otherOut otherEq => ?_⟩
      cases stepEq.symm.trans otherEq
      refine ih kept fun initialOps isInitial => ?_
      obtain ⟨reached, run, good⟩ := always (op :: initialOps)
        (prefix_cons_inj op |>.mpr isInitial)
      obtain ⟨other, otherOut, otherEq, rest⟩ := reaches_cons.mp run
      cases stepEq.symm.trans otherEq
      exact ⟨reached, rest, good⟩
  · intro respected initialOps isInitial
    obtain ⟨reached, run, kept⟩ :=
      (respected.of_prefix isInitial).exists_reaches Inv progress initially
    exact ⟨reached, run, good_of_inv kept⟩

theorem results_iff_respects (Inv : State → Prop) (Good : Out → Prop)
    (exactly : ∀ {state op next out}, Inv state → step state op = some (next, out) →
      (Good out ↔ guard state op))
    (preserved : ∀ {state op next out}, Inv state → guard state op →
      step state op = some (next, out) → Inv next)
    (runEq : run step start ops = some (finish, outs)) (initially : Inv start) :
    (∀ out ∈ outs, Good out) ↔ Respects step guard start ops := by
  induction ops generalizing start outs with
  | nil =>
    cases runEq
    exact iff_of_true nofun trivial
  | cons op ops ih =>
    obtain ⟨next, out, rest, stepEq, restEq, rfl⟩ := run_cons_eq_some.mp runEq
    rw [forall_mem_cons, exactly initially stepEq]
    constructor
    · rintro ⟨guarded, good⟩
      exact .cons guarded stepEq ((ih restEq (preserved initially guarded stepEq)).mp good)
    · rintro ⟨guarded, respected⟩
      exact ⟨guarded, (ih restEq (preserved initially guarded stepEq)).mpr
        (respected next out stepEq)⟩

theorem run_traced (Inv : State → List (Op × Out) → Prop)
    (preserved : ∀ {state trace op next out}, Inv state trace → step state op = some (next, out) →
      Inv next (trace ++ [(op, out)]))
    {trace : List (Op × Out)} (runEq : run step start ops = some (finish, outs))
    (initially : Inv start trace) :
    Inv finish (trace ++ ops.zip outs) := by
  induction ops generalizing start outs trace with
  | nil =>
    cases runEq
    simpa using initially
  | cons op ops ih =>
    obtain ⟨next, out, rest, stepEq, restEq, rfl⟩ := run_cons_eq_some.mp runEq
    have last := ih restEq (preserved initially stepEq)
    simpa using last

theorem run_results (Inv : State → List Out → Prop)
    (preserved : ∀ {state past op next out}, Inv state past → step state op = some (next, out) →
      Inv next (past ++ [out]))
    (runEq : run step start ops = some (finish, outs)) (initially : Inv start []) :
    Inv finish outs := by
  have traced : Inv finish (([] ++ ops.zip outs).map Prod.snd) := by
    refine run_traced (fun state trace => Inv state (trace.map Prod.snd)) ?_ runEq initially
    intro state trace op next out inv stepEq
    rw [map_append]
    exact preserved inv stepEq
  rwa [nil_append, map_snd_zip (length_of_run runEq).ge] at traced

section

variable {Detailed DetailedOp DetailedOut : Type*}
  {detailedStep : Detailed → DetailedOp → Option (Detailed × DetailedOut)}
  (project : Detailed → State) (rename : DetailedOp → Op)
  {begin finish : Detailed} {ops : List DetailedOp}

theorem Reaches.map
    (matched : ∀ {state op next out}, detailedStep state op = some (next, out) →
      ∃ out, step (project state) (rename op) = some (project next, out))
    (reached : Reaches detailedStep begin ops finish) :
    Reaches step (project begin) (ops.map rename) (project finish) := by
  induction ops generalizing begin with
  | nil => rw [reaches_nil.mp reached, map_nil, reaches_nil]
  | cons op ops ih =>
    obtain ⟨next, out, stepEq, rest⟩ := reaches_cons.mp reached
    obtain ⟨projected, projectedEq⟩ := matched stepEq
    exact reaches_cons.mpr ⟨_, projected, projectedEq, ih rest⟩

theorem Respects.map {guard : State → Op → Prop}
    {detailedGuard : Detailed → DetailedOp → Prop}
    (matched : ∀ {state op next out}, detailedStep state op = some (next, out) →
      ∃ out, step (project state) (rename op) = some (project next, out))
    (guarded : ∀ {state op}, detailedGuard state op → guard (project state) (rename op))
    (respected : Respects detailedStep detailedGuard begin ops)
    (reached : Reaches detailedStep begin ops finish) :
    Respects step guard (project begin) (ops.map rename) := by
  induction ops generalizing begin with
  | nil => trivial
  | cons op ops ih =>
    obtain ⟨next, out, stepEq, rest⟩ := reaches_cons.mp reached
    obtain ⟨projected, projectedEq⟩ := matched stepEq
    refine ⟨guarded respected.1, fun other otherOut otherEq => ?_⟩
    cases projectedEq.symm.trans otherEq
    exact ih (respected.2 next out stepEq) rest

end

theorem Reaches.simulated {Other OtherOut : Type*}
    {otherStep : Other → Op → Option (Other × OtherOut)} (Represents : State → Other → Prop)
    (matched : ∀ {state other op next out}, Represents state other →
      step state op = some (next, out) →
      ∃ otherNext otherOut, otherStep other op = some (otherNext, otherOut) ∧
      Represents next otherNext)
    {other : Other} (reached : Reaches step start ops finish)
    (initially : Represents start other) :
    ∃ otherFinish, Reaches otherStep other ops otherFinish ∧ Represents finish otherFinish := by
  induction ops generalizing start other with
  | nil =>
    rw [reaches_nil.mp reached]
    exact ⟨other, reaches_nil.mpr rfl, initially⟩
  | cons op ops ih =>
    obtain ⟨next, out, stepEq, rest⟩ := reaches_cons.mp reached
    obtain ⟨otherNext, otherOut, otherEq, represents⟩ := matched initially stepEq
    obtain ⟨otherFinish, otherRest, last⟩ := ih rest represents
    exact ⟨otherFinish, reaches_cons.mpr ⟨otherNext, otherOut, otherEq, otherRest⟩, last⟩

theorem run_refines {Abstract : Type*} {abstractStep : Abstract → Op → Option (Abstract × Out)}
    (Represents : State → Abstract → Prop)
    (matched : ∀ {state abstract op}, Represents state abstract → guard state op →
      ∃ next abstractNext out, step state op = some (next, out) ∧
      abstractStep abstract op = some (abstractNext, out) ∧ Represents next abstractNext)
    {abstract : Abstract} (respected : Respects step guard start ops)
    (initially : Represents start abstract) :
    ∃ finish abstractFinish outs, run step start ops = some (finish, outs) ∧
        run abstractStep abstract ops = some (abstractFinish, outs) ∧
          Represents finish abstractFinish := by
  induction ops generalizing start abstract with
  | nil => exact ⟨start, abstract, [], rfl, rfl, initially⟩
  | cons op ops ih =>
    obtain ⟨next, abstractNext, out, stepEq, abstractEq, represents⟩ :=
      matched initially respected.1
    obtain ⟨finish, abstractFinish, outs, runEq, abstractRunEq, last⟩ :=
      ih (respected.2 next out stepEq) represents
    refine ⟨finish, abstractFinish, out :: outs, ?_, ?_, last⟩
    · exact run_cons_eq_some.mpr ⟨next, out, outs, stepEq, runEq, rfl⟩
    · exact run_cons_eq_some.mpr ⟨abstractNext, out, outs, abstractEq, abstractRunEq, rfl⟩

theorem run_results_eq {Other : Type*} {otherStep : Other → Op → Option (Other × Out)}
    (Represents : State → Other → Prop)
    (matched : ∀ {state other op}, Represents state other →
      step state op = none ∧ otherStep other op = none ∨
        ∃ next last out, step state op = some (next, out) ∧
          otherStep other op = some (last, out) ∧ Represents next last)
    {other : Other} (initially : Represents start other) :
    (run step start ops).map Prod.snd = (run otherStep other ops).map Prod.snd := by
  induction ops generalizing start other with
  | nil => rfl
  | cons op ops ih =>
    rcases matched initially with ⟨ends, otherEnds⟩ | ⟨next, last, out, stepEq, otherEq, after⟩
    · rw [run, ends, run, otherEnds]
      rfl
    · have rest := congrArg (Option.map (out :: ·)) (ih after)
      simpa [run, stepEq, otherEq, Option.map_map, Function.comp_def] using rest

end BitsAndBytes.OperationRuns
