import Mathlib.Data.Option.Basic

/-!
# The type `int`

An expression whose value does not fit into an `int` has no outcome: `checked` is then `none`.
Conversions, and counters beyond whose overflow a result goes on, wrap around: `wrapped`.
A value of which the results need only that it is some `int` is a parameter.
Counts of threads are not bounded.
-/

namespace BitsAndBytes.SignedInt

open Option

def intMin : Int := -2147483648

def intMax : Int := 2147483647

def checked (value : Int) : Option Int :=
  if intMin ≤ value ∧ value ≤ intMax then some value else none

def wrapped (value : Int) : Int :=
  value.bmod 4294967296

variable {value result : Int}

theorem checked_eq_some_iff :
    checked value = some result ↔ result = value ∧ intMin ≤ value ∧ value ≤ intMax := by
  rw [checked, ite_none_right_eq_some, some.injEq, eq_comm, and_comm]

theorem checked_bind {Result : Type*} (low : intMin ≤ value) (high : value ≤ intMax)
    (next : Int → Option Result) : (checked value).bind next = next value := by
  rw [checked_eq_some_iff.mpr ⟨rfl, low, high⟩, bind_some]

theorem wrapped_eq_self (low : intMin ≤ value) (high : value ≤ intMax) : wrapped value = value := by
  unfold intMin at low
  unfold intMax at high
  exact Int.bmod_eq_of_le (by omega) (by omega)

end BitsAndBytes.SignedInt
