import BitsAndBytes.OperationRuns
import Mathlib.Algebra.Ring.Nat

/-! # Flat memories -/

namespace BitsAndBytes.FlatMemory

open OperationRuns Function List Option

variable {Op Address Value : Type*} [DecidableEq Address]

def store (written : Op → Option (Address × Value)) (memory : Address → Value)
    (op : Op) : Address → Value :=
  match written op with
  | some (address, value) => update memory address value
  | none => memory

def latestWrite (written : Op → Option (Address × Value)) (ops : List Op)
    (address : Address) : Option Value :=
  ops.reverse.findSome? fun op =>
    match written op with
    | some (target, value) => if target = address then some value else none
    | none => none

variable {written : Op → Option (Address × Value)} {op : Op} {address : Address} {value : Value}
  {ops : List Op} {initial : Address → Value}

theorem latestWrite_concat_of_some (write : written op = some (address, value)) (ops : List Op) :
    latestWrite written (ops ++ [op]) = update (latestWrite written ops) address (some value) := by
  funext target
  rw [latestWrite, reverse_append, reverse_singleton, singleton_append, findSome?_cons]
  by_cases same : target = address
  · subst same
    simp [write]
  · have elsewhere : address ≠ target := Ne.symm same
    simp [write, elsewhere, update_of_ne same, latestWrite]

theorem latestWrite_concat_of_none (noWrite : written op = none) (ops : List Op) :
    latestWrite written (ops ++ [op]) = latestWrite written ops := by
  funext target
  simp [latestWrite, noWrite]

theorem exists_of_latestWrite (latest : latestWrite written ops address = some value) :
    ∃ op ∈ ops, written op = some (address, value) := by
  obtain ⟨op, member, found⟩ := exists_of_findSome?_eq_some latest
  refine ⟨op, mem_reverse.mp member, ?_⟩
  cases write : written op with
  | none => simp [write] at found
  | some cell =>
    obtain ⟨target, stored⟩ := cell
    simp only [write, ite_none_right_eq_some, some.injEq] at found
    rw [found.1, found.2]

theorem foldl_store_eq_latestWrite (written : Op → Option (Address × Value))
    (initial : Address → Value) (ops : List Op) (address : Address) :
    ops.foldl (store written) initial address =
      (latestWrite written ops address).getD (initial address) := by
  induction ops using reverseRecOn with
  | nil => rfl
  | append_singleton ops op ih =>
    rw [foldl_append, foldl_cons, foldl_nil]
    cases write : written op with
    | none =>
      rw [latestWrite_concat_of_none write]
      simpa only [store, write] using ih
    | some cell =>
      obtain ⟨target, value⟩ := cell
      rw [latestWrite_concat_of_some write]
      by_cases same : address = target
      · subst same
        simp [store, write]
      · simpa [store, write, update_of_ne same] using ih

section

variable {State : Type*} {step : State → Op → Option (State × Option Value)}
  {guard : State → Op → Prop} (written : Op → Option (Address × Value))
  (reads : Op → Option Address) (Represents : State → (Address → Value) → Prop)
  (matched : ∀ {state memory op}, Represents state memory → guard state op →
    ∃ next, step state op = some (next, (reads op).map memory) ∧
      Represents next (store written memory op))
include matched

variable {start : State}

theorem exists_reaches_represents (respected : Respects step guard start ops)
    (initially : Represents start initial) :
    ∃ finish, Reaches step start ops finish ∧
      Represents finish (ops.foldl (store written) initial) := by
  refine respected.exists_reaches_foldl Represents (store written) ?_ initial initially
  intro state memory op represents met
  obtain ⟨next, stepEq, after⟩ := matched represents met
  exact ⟨next, _, stepEq, after⟩

theorem read_yields_latestWrite {earlier : List Op} (respected : Respects step guard start ops)
    (initially : Represents start initial) (within : earlier ++ [op] <+: ops)
    (isRead : reads op = some address) :
    ∃ reached next, Reaches step start earlier reached ∧ step reached op = some (next,
        some ((latestWrite written earlier address).getD (initial address))) := by
  have respectedHere := respected.of_prefix within
  obtain ⟨reached, run, represents⟩ := exists_reaches_represents written reads
    Represents matched (respectedHere.of_prefix (prefix_append earlier [op])) initially
  obtain ⟨next, stepEq, -⟩ := matched represents (respectedHere.of_append run).1
  refine ⟨reached, next, run, ?_⟩
  rw [stepEq, isRead, map_some, foldl_store_eq_latestWrite]

end

end BitsAndBytes.FlatMemory
