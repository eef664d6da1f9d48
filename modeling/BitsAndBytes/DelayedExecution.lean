import Mathlib.Logic.Function.Basic

/-! # Execution with delayed results -/

namespace BitsAndBytes.DelayedExecution

open Function Option

variable {Register Value : Type*} [DecidableEq Register]

def commit (registers : Register → Value) : Option (Register × Value) → Register → Value
  | some (target, value) => update registers target value
  | none => registers

def delayed (delay : Nat)
    (compute : Nat → (Register → Value) → Option (Register × Value))
    (initial : Register → Value) : Nat → Register → Value
  | 0 => initial
  | index + 1 =>
    commit (delayed delay compute initial index)
      (compute index (delayed delay compute initial (index - delay)))
termination_by count => count

def sequential (compute : Nat → (Register → Value) → Option (Register × Value))
    (initial : Register → Value) : Nat → Register → Value
  | 0 => initial
  | index + 1 =>
    commit (sequential compute initial index)
      (compute index (sequential compute initial index))

variable {delay : Nat}
  {compute : Nat → (Register → Value) → Option (Register × Value)} {initial : Register → Value}

@[simp]
theorem delayed_zero : delayed delay compute initial 0 = initial := by
  rw [delayed]

theorem delayed_succ (index : Nat) : delayed delay compute initial (index + 1) =
      commit (delayed delay compute initial index)
        (compute index (delayed delay compute initial (index - delay))) := by
  rw [delayed]

theorem commit_injective {registers : Register → Value} {first second : Option (Register × Value)}
    (sameTarget : first.map Prod.fst = second.map Prod.fst)
    (same : commit registers first = commit registers second) : first = second := by
  cases first with
  | none =>
    rw [map_none, eq_comm, map_eq_none_iff] at sameTarget
    exact sameTarget.symm
  | some cell =>
    obtain ⟨⟨target, value⟩, rfl, isTarget⟩ := map_eq_some_iff.mp sameTarget.symm
    obtain rfl : target = cell.1 := isTarget
    have values := congrFun same cell.1
    simp only [commit, update_self] at values
    rw [← values]

theorem delayed_eq_sequential {count : Nat} (unnoticed : ∀ index < count,
      compute index (sequential compute initial (index - delay)) =
        compute index (sequential compute initial index)) :
    delayed delay compute initial count = sequential compute initial count := by
  induction count using Nat.strongRecOn with
  | ind count ih =>
    cases count with
    | zero => simp [sequential]
    | succ index =>
      have before := ih index (by omega) fun i iLt => unnoticed i (by omega)
      have operands := ih (index - delay) (by omega) fun i iLt => unnoticed i (by omega)
      rw [delayed_succ, before, operands, unnoticed index (by omega)]
      rfl

theorem delayed_eq_sequential_iff (sameTarget : ∀ index registers other,
      (compute index registers).map Prod.fst = (compute index other).map Prod.fst) (count : Nat) :
    (∀ n ≤ count, delayed delay compute initial n = sequential compute initial n) ↔
      ∀ index < count, compute index (sequential compute initial (index - delay)) =
        compute index (sequential compute initial index) := by
  constructor
  · intro agree index below
    have last := agree (index + 1) below
    rw [delayed_succ, agree index (Nat.le_of_lt below), agree (index - delay) (by omega)] at last
    exact commit_injective (sameTarget index _ _) last
  · intro unnoticed n bound
    exact delayed_eq_sequential fun index below => unnoticed index (by omega)

end BitsAndBytes.DelayedExecution
