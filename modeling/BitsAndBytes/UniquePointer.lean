import BitsAndBytes.OperationRuns
import Mathlib.Data.List.Count
import Mathlib.Data.List.Nodup

/-! # The unique pointers of `uniquePointer.c` -/

namespace BitsAndBytes.UniquePointer

open OperationRuns List Option

variable {Raw Deleter : Type*}

@[ext]
structure UniquePtr (Raw Deleter : Type*) where
  ptr : Option Raw
  deleter : Option Deleter
  isOwned : Bool
deriving DecidableEq, Repr

abbrev Deletion (Raw Deleter : Type*) := Raw × Option Deleter

def create (p : Option Raw) (d : Option Deleter) : UniquePtr Raw Deleter :=
  ⟨p, d, true⟩

def destroy (up : UniquePtr Raw Deleter) : UniquePtr Raw Deleter × Option (Deletion Raw Deleter) :=
  if up.isOwned then
    match up.ptr with
    | some p => (⟨none, up.deleter, false⟩, some (p, up.deleter))
    | none => ({ up with isOwned := false }, none)
  else
    (up, none)

def release (up : UniquePtr Raw Deleter) : UniquePtr Raw Deleter × Option Raw :=
  if up.isOwned then
    (⟨none, up.deleter, false⟩, up.ptr)
  else
    (up, none)

def reset (up : UniquePtr Raw Deleter) (p : Option Raw) :
    UniquePtr Raw Deleter × Option (Deletion Raw Deleter) :=
  if up.isOwned then
    ({ up with ptr := p }, up.ptr.map fun old => (old, up.deleter))
  else
    (up, none)

def move (up : UniquePtr Raw Deleter) : UniquePtr Raw Deleter × UniquePtr Raw Deleter :=
  if up.isOwned then
    (⟨none, up.deleter, false⟩, up)
  else
    (up, ⟨none, up.deleter, false⟩)

@[ext]
structure State (Raw Deleter : Type*) where
  objects : List (UniquePtr Raw Deleter)
  handed : List Raw
  returned : List Raw
  deletions : List (Deletion Raw Deleter)

def start : State Raw Deleter := ⟨[], [], [], []⟩

inductive Op (Raw Deleter : Type*)
  | create (p : Raw) (d : Option Deleter)
  | move (index : Nat)
  | release (index : Nat)
  | reset (index : Nat) (p : Raw)
  | destroy (index : Nat)

variable [DecidableEq Raw]

def step (state : State Raw Deleter) : Op Raw Deleter → Option (State Raw Deleter × Unit)
  | .create p d =>
    if p ∈ state.handed then
      none
    else
      some ({ state with
        objects := state.objects ++ [create (some p) d]
        handed := p :: state.handed }, ())
  | .move index =>
    state.objects[index]?.map fun up =>
      ({ state with objects := state.objects.set index (move up).1 ++ [(move up).2] }, ())
  | .release index =>
    state.objects[index]?.map fun up =>
      ({ state with
        objects := state.objects.set index (release up).1
        returned := (release up).2.toList ++ state.returned }, ())
  | .reset index p =>
    if p ∈ state.handed then
      none
    else
      state.objects[index]?.map fun up =>
        ({ state with
          objects := state.objects.set index (reset up (some p)).1
          handed := p :: state.handed
          deletions := (reset up (some p)).2.toList ++ state.deletions }, ())
  | .destroy index =>
    state.objects[index]?.map fun up =>
      ({ state with
        objects := state.objects.set index (destroy up).1
        deletions := (destroy up).2.toList ++ state.deletions }, ())

def UniquePtr.owns (up : UniquePtr Raw Deleter) (p : Raw) : Bool :=
  up.isOwned && decide (up.ptr = some p)

namespace State

def owners (state : State Raw Deleter) (p : Raw) : Nat :=
  state.objects.countP (·.owns p)

def deleted (state : State Raw Deleter) (p : Raw) : Nat :=
  state.deletions.countP (·.1 = p)

/-- The pointer is owned by one object, or was released, or was deleted. -/
def Accounted (state : State Raw Deleter) (p : Raw) : Prop :=
  (state.owners p = 1 ∧ state.returned.count p = 0 ∧ state.deleted p = 0) ∨
    (state.owners p = 0 ∧ state.returned.count p = 1 ∧ state.deleted p = 0) ∨
      (state.owners p = 0 ∧ state.returned.count p = 0 ∧ state.deleted p = 1)

def total (state : State Raw Deleter) (p : Raw) : Nat :=
  state.owners p + state.returned.count p + state.deleted p

end State

/-- A reset with a fresh pointer is on an object that owns one. -/
def ResetsOwned (state : State Raw Deleter) : Op Raw Deleter → Prop
  | .reset index p => ∀ up, state.objects[index]? = some up → p ∉ state.handed → up.isOwned
  | _ => True

section

variable (up : UniquePtr Raw Deleter) (p : Raw)

theorem owns_destroy : ((destroy up).1.owns p).toNat + (destroy up).2.toList.countP (·.1 = p) =
      (up.owns p).toNat := by
  obtain ⟨ptr, deleter, isOwned⟩ := up
  cases isOwned with
  | false => simp [destroy]
  | true =>
    cases ptr with
    | none => simp [destroy, UniquePtr.owns]
    | some q => by_cases same : q = p <;> simp [destroy, UniquePtr.owns, same]

theorem owns_release :
    ((release up).1.owns p).toNat + (release up).2.toList.count p = (up.owns p).toNat := by
  obtain ⟨ptr, deleter, isOwned⟩ := up
  cases isOwned with
  | false => simp [release]
  | true =>
    cases ptr with
    | none => simp [release, UniquePtr.owns]
    | some q => by_cases same : q = p <;> simp [release, UniquePtr.owns, same]

theorem owns_reset (isOwned : up.isOwned) (q : Raw) : ((reset up (some q)).1.owns p).toNat +
        (reset up (some q)).2.toList.countP (·.1 = p) = (up.owns p).toNat + [q].count p := by
  obtain ⟨ptr, deleter, isOwned⟩ := up
  cases isOwned
  cases ptr with
  | none => by_cases new : q = p <;> simp [reset, UniquePtr.owns, new]
  | some old =>
    by_cases same : old = p <;> by_cases new : q = p <;> simp [reset, UniquePtr.owns, same, new]

theorem owns_move :
    ((move up).1.owns p).toNat + ((move up).2.owns p).toNat = (up.owns p).toNat := by
  obtain ⟨ptr, deleter, isOwned⟩ := up
  cases isOwned <;> simp [move, UniquePtr.owns]

end

theorem countP_set_add {Value : Type*} (counted : Value → Bool) {values : List Value}
    {index : Nat} {old : Value} (found : values[index]? = some old) (new : Value) :
    (values.set index new).countP counted + (counted old).toNat =
      values.countP counted + (counted new).toNat := by
  obtain ⟨bound, rfl⟩ := List.getElem?_eq_some_iff.mp found
  rw [countP_set bound]
  cases oldCounts : counted values[index] with
  | false => cases counted new <;> simp
  | true =>
    have positive := countP_pos_iff.mpr ⟨_, getElem_mem bound, oldCounts⟩
    cases counted new <;> simp <;> omega

section

variable {state next : State Raw Deleter} {op : Op Raw Deleter} {out : Unit}

theorem step_cases (stepEq : step state op = some (next, out)) :
    (next.handed = state.handed ∧ ∀ p, next.total p = state.total p) ∨
      ∃ q, q ∉ state.handed ∧ next.handed = q :: state.handed ∧
        ((∀ p, next.total p = state.total p + [q].count p) ∨
          ¬ ResetsOwned state op ∧ ∀ p, next.total p = state.total p) := by
  cases op with
  | create q d =>
    rw [step, ite_none_left_eq_some] at stepEq
    obtain ⟨fresh, ⟨⟩⟩ := stepEq
    refine .inr ⟨q, fresh, rfl, .inl fun p => ?_⟩
    have owned : ([create (some q) d].countP (·.owns p)) = [q].count p := by
      by_cases same : q = p <;> simp [create, UniquePtr.owns, same]
    simp only [State.total, State.owners, State.deleted, countP_append, owned]
    omega
  | move index =>
    obtain ⟨up, found, ⟨⟩⟩ := map_eq_some_iff.mp stepEq
    refine .inl ⟨rfl, fun p => ?_⟩
    have changed := countP_set_add (·.owns p) found (move up).1
    have balanced := owns_move up p
    have last : [(move up).2].countP (·.owns p) = ((move up).2.owns p).toNat := by
      cases owned : (move up).2.owns p <;> simp [owned]
    simp only [State.total, State.owners, State.deleted, countP_append, last]
    omega
  | release index =>
    obtain ⟨up, found, ⟨⟩⟩ := map_eq_some_iff.mp stepEq
    refine .inl ⟨rfl, fun p => ?_⟩
    have changed := countP_set_add (·.owns p) found (release up).1
    have balanced := owns_release up p
    simp only [State.total, State.owners, State.deleted, count_append]
    omega
  | reset index q =>
    rw [step, ite_none_left_eq_some] at stepEq
    obtain ⟨fresh, mapped⟩ := stepEq
    obtain ⟨up, found, ⟨⟩⟩ := map_eq_some_iff.mp mapped
    refine .inr ⟨q, fresh, rfl, ?_⟩
    have changed := fun p => countP_set_add (·.owns p) found (reset up (some q)).1
    simp only [State.total, State.owners, State.deleted, countP_append]
    by_cases isOwned : up.isOwned
    · refine .inl fun p => ?_
      have balanced := owns_reset up p isOwned q
      have := changed p
      omega
    · refine .inr ⟨fun resetsOwned => isOwned (resetsOwned up found fresh), fun p => ?_⟩
      have := changed p
      simp only [reset, if_neg isOwned, toList_none, countP_nil] at *
      omega
  | destroy index =>
    obtain ⟨up, found, ⟨⟩⟩ := map_eq_some_iff.mp stepEq
    refine .inl ⟨rfl, fun p => ?_⟩
    have changed := countP_set_add (·.owns p) found (destroy up).1
    have balanced := owns_destroy up p
    simp only [State.total, State.owners, State.deleted, countP_append]
    omega

/-- Each pointer that was handed in is owned, released or deleted once in all. -/
structure Balanced (state : State Raw Deleter) : Prop where
  nodup : state.handed.Nodup
  total_eq : ∀ p, state.total p = state.handed.count p

theorem count_handed {q : Raw} (handed : next.handed = q :: state.handed) (p : Raw) :
    next.handed.count p = state.handed.count p + [q].count p := by
  rw [handed, count_cons, count_singleton]

theorem Balanced.step (balanced : Balanced state) (resets : ResetsOwned state op)
    (stepEq : UniquePointer.step state op = some (next, out)) : Balanced next := by
  rcases step_cases stepEq with ⟨same, totals⟩ | ⟨q, fresh, handed, totals⟩
  · exact ⟨same ▸ balanced.nodup, fun p => by rw [same, totals]; exact balanced.total_eq p⟩
  · refine ⟨handed ▸ nodup_cons.mpr ⟨fresh, balanced.nodup⟩, fun p => ?_⟩
    have accounts := totals.resolve_right fun forgets => forgets.1 resets
    rw [accounts, balanced.total_eq, count_handed handed]

/-- No pointer is deleted twice, and each is accounted for. -/
def Safe (state : State Raw Deleter) : Prop :=
  (∀ p, state.deleted p ≤ 1) ∧ ∀ p ∈ state.handed, state.Accounted p

theorem Balanced.safe (balanced : Balanced state) : Safe state := by
  have once := nodup_iff_count_le_one.mp balanced.nodup
  have total := balanced.total_eq
  simp only [State.total] at total
  refine ⟨fun p => ?_, fun p member => ?_⟩
  · specialize once p
    specialize total p
    omega
  · specialize total p
    rw [count_eq_one_of_mem balanced.nodup member] at total
    simp only [State.Accounted]
    omega

theorem Balanced.forgets (balanced : Balanced state) (unowned : ¬ ResetsOwned state op) :
    ∃ next out, UniquePointer.step state op = some (next, out) ∧ ¬ Safe next := by
  cases op with
  | reset index q =>
    simp only [ResetsOwned, not_forall] at unowned
    obtain ⟨up, found, fresh, isOwned⟩ := unowned
    have stepEq : UniquePointer.step state (.reset index q) =
        some (⟨state.objects.set index (reset up (some q)).1, q :: state.handed,
          state.returned, (reset up (some q)).2.toList ++ state.deletions⟩, ()) := by
      rw [UniquePointer.step, if_neg fresh, found]
      rfl
    refine ⟨_, _, stepEq, fun safe => ?_⟩
    have unchanged : (reset up (some q)) = (up, none) := if_neg isOwned
    have accounted := safe.2 q (mem_cons_self)
    have total := balanced.total_eq q
    have counted := countP_set_add (·.owns q) found up
    rw [count_eq_zero.mpr fresh] at total
    simp only [State.Accounted, State.owners, State.deleted, State.total, unchanged,
      toList_none, nil_append] at accounted total
    omega
  | _ => exact absurd trivial unowned

end

/-- No pointer is lost or deleted twice exactly if each reset is on an object that owns one. -/
theorem safe_iff_resets_owned (ops : List (Op Raw Deleter)) :
    (∀ initialOps, initialOps <+: ops → ∀ state, Reaches step start initialOps state → Safe state) ↔
      Respects step ResetsOwned start ops :=
  always_iff_respects Balanced Safe Balanced.safe
    (fun balanced resets stepEq => balanced.step resets stepEq)
    (fun balanced unowned => balanced.forgets unowned) ⟨nodup_nil, fun _ => rfl⟩ ops

theorem pointer_lost_by_reset : ∃ state : State Bool Unit, Reaches step start
        [.create true none, .release 0, .reset 0 false] state ∧
      false ∈ state.handed ∧ ¬ state.Accounted false := by
  refine ⟨_, ⟨_, rfl⟩, ?_, ?_⟩
  · decide
  · simp only [State.Accounted]
    decide

end BitsAndBytes.UniquePointer
